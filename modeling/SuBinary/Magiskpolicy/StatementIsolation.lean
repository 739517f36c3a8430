import SuBinary.Magiskpolicy.BracketedStatements
import SuBinary.Magiskpolicy.Main

/-! # Isolation of the statements

The loop of `magiskpolicy_main` computes where the words after the keyword
begin from the start of the statement and the length of the keyword. The
statements for which that is right are told apart here, over whole runs.
-/

namespace SuBinary.Magiskpolicy

open SuBinary

/-! ## What a statement means -/

def parseWords : Layout → Nat → List CString → Parsed
  | .pattern1, action, list => parseTokens pattern1 (perform1 action) (list.flatMap detach)
  | .pattern2, action, list => parseTokens pattern2 (perform2 action) (list.flatMap detach)
  | .pattern3, action, list =>
      match typeAction action with
      | none => (1, [])
      | some kind =>
          (0, (list.flatMap typeWords).map fun word => .typeState kind (operand word))
  | .pattern4, _, list => performTypetrans list
  | .pattern5, action, list => parseTokens pattern5 (perform5 action) (list.flatMap detach)

/-- The operations of a statement, and whether it is a syntax error. -/
def meaning : List CString → List PolicyCall × Bool
  | [] => ([], true)
  | word :: rest =>
      match keywords.lookup word with
      | none => ([], true)
      | some (layout, action) =>
          let (status, calls) := parseWords layout action rest
          (calls, status ≠ 0)

/-! ## The parsers -/

theorem typeAction_of_keyword {word : CString} {action : Nat}
    (isKeyword : keywords.lookup word = some (.pattern3, action)) :
    ∃ kind, typeAction action = some kind := by
  have all : ∀ entry, entry ∈ keywords → entry.2.1 = .pattern3 →
      (typeAction entry.2.2).isSome := by decide
  rcases List.lookup_eq_some_iff.mp isKeyword with ⟨before, after, isList, -⟩
  have member : (word, Layout.pattern3, action) ∈ keywords := by simp [isList]
  exact Option.isSome_iff_exists.mp (all _ member rfl)

theorem typeWords_eq (text : CString) : typeWords text = (words text).flatMap typeWords :=
  tokens_refine (fun byte isSpace => by simp_all [typesVisitor]) text

theorem parsePattern_parses {word : CString} {layout : Layout} {action : Nat}
    (isKeyword : keywords.lookup word = some (layout, action)) (text : CString) :
    Parses (parsePattern layout action) text (parseWords layout action (words text)) := by
  cases layout with
  | pattern1 => exact parsePattern1_parses action text
  | pattern2 => exact parsePattern2_parses action text
  | pattern3 =>
      rcases typeAction_of_keyword isKeyword with ⟨kind, isKind⟩
      simp only [parseWords, isKind, ← typeWords_eq]
      exact parsePattern3_parses isKind text
  | pattern4 => exact parsePattern4_parses action text
  | pattern5 => exact parsePattern5_parses action text

theorem parseBracketed_touches {pattern : Pattern} {perform : Scan CString → Parsed}
    {statement : Nat} {memory after : Memory} {parsed : Parsed}
    (ran : parseBracketed pattern perform statement memory = some (parsed, after)) :
    statement ∈ after.touched := by
  rcases FaultM.bind_some.mp ran with ⟨result, middle, scanned, ran⟩
  rcases (bracketVisitor pattern).scan_touches scanned with ⟨-, touched⟩
  cases result with
  | none =>
      cases FaultM.pure_some.mp ran
      exact touched
  | some scan =>
      simp only at ran
      split at ran
      · cases FaultM.pure_some.mp ran
        exact touched
      · cases ran
        exact touched

theorem parsePattern_touches {layout : Layout} {action statement : Nat} {memory after : Memory}
    {parsed : Parsed}
    (ran : parsePattern layout action statement memory = some (parsed, after)) :
    statement ∈ after.touched := by
  cases layout with
  | pattern1 => exact parseBracketed_touches ran
  | pattern2 => exact parseBracketed_touches ran
  | pattern3 =>
      rcases FaultM.bind_some.mp ran with ⟨result, middle, scanned, ran⟩
      rcases typesVisitor.scan_touches scanned with ⟨-, touched⟩
      cases result with
      | none =>
          cases FaultM.pure_some.mp ran
          exact touched
      | some classes =>
          rcases FaultM.bind_some.mp ran with ⟨_, _, got, ran⟩
          cases got
          cases isKind : typeAction action with
          | none =>
              rw [isKind] at ran
              cases ran
          | some kind =>
              rw [isKind] at ran
              cases FaultM.pure_some.mp ran
              exact touched
  | pattern4 =>
      rcases FaultM.bind_some.mp ran with ⟨result, middle, scanned, ran⟩
      rcases transitionVisitor.scan_touches scanned with ⟨-, touched⟩
      cases result with
      | none =>
          cases FaultM.pure_some.mp ran
          exact touched
      | some list =>
          cases ran
          exact touched
  | pattern5 => exact parseBracketed_touches ran

/-! ## The first word -/

structure FirstWord (text front word rest : CString) : Prop where
  split : text = front ++ (word ++ rest)
  spaces : ∀ byte, byte ∈ front → byte = space
  someWord : word ≠ []
  plain : ∀ byte, byte ∈ word → byte ≠ space
  stops : ∀ byte, rest.head? = some byte → byte = space

theorem firstWord_or_spaces (text : CString) :
    (∀ byte, byte ∈ text → byte = space) ∨ ∃ front word rest, FirstWord text front word rest := by
  rcases text_cases (· = space) text with delimits |
    ⟨front, word, delimits, someWord, plain, isText⟩ |
    ⟨front, word, byte, back, delimits, someWord, plain, ends, isText⟩
  · exact Or.inl fun byte member => of_decide_eq_true (delimits byte member)
  · refine Or.inr ⟨front, word, [], by rw [isText, List.append_nil], ?_, someWord, ?_, nofun⟩
    · exact fun byte member => of_decide_eq_true (delimits byte member)
    · exact fun byte member => of_decide_eq_false (plain byte member)
  · refine Or.inr ⟨front, word, byte :: back, isText, ?_, someWord, ?_, ?_⟩
    · exact fun byte member => of_decide_eq_true (delimits byte member)
    · exact fun byte member => of_decide_eq_false (plain byte member)
    · intro other isHead
      obtain rfl : byte = other := by simpa using isHead
      exact of_decide_eq_true ends

theorem delimits_of_spaces {front : CString} (spaces : ∀ byte, byte ∈ front → byte = space) :
    ∀ byte, byte ∈ front → decide (byte = space) = true :=
  fun byte member => decide_eq_true (spaces byte member)

theorem plain_of_not_space {word : CString} (plain : ∀ byte, byte ∈ word → byte ≠ space) :
    ∀ byte, byte ∈ word → decide (byte = space) = false :=
  fun byte member => decide_eq_false (plain byte member)

theorem words_of_spaces {text : CString} (spaces : ∀ byte, byte ∈ text → byte = space) :
    words text = [] := by
  have none := tokens_of_delimiters (delimits_of_spaces spaces) []
  rwa [List.append_nil, tokens_nil] at none

theorem words_space (back : CString) : words (space :: back) = words back := by
  have single : ∀ byte, byte ∈ [space] → decide (byte = space) = true := by simp
  exact tokens_of_delimiters single back

section First

variable {text front word rest : CString}

theorem FirstWord.length_le (first : FirstWord text front word rest) :
    front.length + word.length ≤ text.length := by
  rw [first.split]
  simp

theorem FirstWord.words_eq (first : FirstWord text front word rest) :
    words text = word :: words rest := by
  rcases first with ⟨rfl, spaces, someWord, plain, stops⟩
  have isWord := tokens_of_plain someWord (plain_of_not_space plain)
  rw [words, tokens_of_delimiters (delimits_of_spaces spaces)]
  cases rest with
  | nil =>
      rw [List.append_nil, isWord]
      rfl
  | cons byte back =>
      rcases stops byte rfl with rfl
      rw [tokens_append_cons _ _ (decide_eq_true rfl), isWord, words_space]
      rfl

theorem FirstWord.strtokR (first : FirstWord text front word rest) {memory : Memory} {base : Nat}
    (present : HasString memory.cells base text) :
    ∃ saveptr after, strtokR (· = space) base memory =
        some ((some (base + front.length), saveptr), after) ∧
      Confined base (base + text.length) memory after ∧
      HasString after.cells base (front ++ word) ∧
      ∀ byte back, rest = byte :: back →
        HasString after.cells (base + front.length + word.length + 1) back := by
  rcases first with ⟨rfl, spaces, someWord, plain, stops⟩
  have delimits := delimits_of_spaces spaces
  have plainWord := plain_of_not_space plain
  have clean : 0 ∉ word := fun nul =>
    present.clean (List.mem_append_right _ (List.mem_append_left _ nul))
  have here := present.drop_eq
  cases rest with
  | nil =>
      rw [List.append_assoc, List.append_assoc, List.nil_append] at here
      have ran := strtokR_scan here delimits someWord clean plainWord (Or.inl rfl)
      rw [if_pos rfl] at ran
      refine ⟨_, _, ran, Confined.touch _ (Nat.le_refl _) (by simp; omega), ?_, nofun⟩
      simpa using present
  | cons byte back =>
      have ends := stops byte rfl
      rw [List.append_assoc, List.append_assoc, List.cons_append] at here
      have ran := strtokR_scan here delimits someWord clean plainWord
        (Or.inr (decide_eq_true ends))
      have notNul : byte ≠ 0 := by
        rw [ends]
        decide
      rw [if_neg notNul] at ran
      rw [← List.append_assoc] at present
      rcases HasString.cut present with ⟨cut, following⟩
      rw [List.length_append, ← Nat.add_assoc] at cut following
      refine ⟨_, _, ran, ?_, cut, ?_⟩
      · exact (Confined.touch _ (Nat.le_refl _) (by simp; omega)).trans
          (Confined.set _ 0 (by omega) (by simp; omega))
      · rintro other others isRest
        cases isRest
        exact following

end First

/-! ## One statement -/

def Dispatched.ofParsed (text argument : CString) (parsed : Parsed) : Dispatched where
  argument := some argument
  calls := parsed.2
  reported := if parsed.1 ≠ 0 then some text else none

section Dispatch

variable {text front word rest : CString} {memory : Memory} {base : Nat}

theorem dispatch_spaces (present : HasString memory.cells base text)
    (spaces : ∀ byte, byte ∈ text → byte = space) : dispatch base memory = none := by
  have presentRead : HasString (memory.touch base (text.length + 1)).cells base text := present
  have ran : strtokR (· = space) base (memory.touch base (text.length + 1)) =
      some ((none, none), _) := strtokR_none rfl presentRead (delimits_of_spaces spaces)
  rw [dispatch, FaultM.run_bind (readString_of_hasString present), FaultM.run_bind ran]
  rfl

/-- The statement after its keyword has been found; the parser works on what
lies at `base + strlen(tok) + 1`. -/
theorem FirstWord.dispatch_eq (first : FirstWord text front word rest)
    (present : HasString memory.cells base text) :
    ∃ middle, Confined base (base + text.length) memory middle ∧
      HasString middle.cells base (front ++ word) ∧
      (∀ byte back, rest = byte :: back →
        HasString middle.cells (base + front.length + word.length + 1) back) ∧
      dispatch base memory =
        match keywords.lookup word with
        | none => some ({ argument := none, calls := [], reported := some text }, middle)
        | some (layout, action) =>
            let middle := middle.touch (base + front.length) (word.length + 1)
            let statement := base + word.length + 1
            (parsePattern layout action statement middle).map fun ran =>
              (Dispatched.ofParsed text (stringAt middle.cells statement) ran.1, ran.2) := by
  have presentRead : HasString (memory.touch base (text.length + 1)).cells base text := present
  rcases first.strtokR presentRead with ⟨saveptr, cut, ran, confined, cutString, following⟩
  have isWord : HasString cut.cells (base + front.length) word := cutString.suffix
  have room := first.length_le
  refine ⟨cut.touch (base + front.length) (word.length + 1),
    ((Confined.touch _ (Nat.le_refl _) (by omega)).trans confined).trans
      (Confined.touch _ (by omega) (by omega)), cutString, following, ?_⟩
  rw [dispatch, FaultM.run_bind (readString_of_hasString present), FaultM.run_bind ran]
  simp only
  rw [FaultM.run_bind (readString_of_hasString isWord)]
  cases isKeyword : keywords.lookup word with
  | none => rfl
  | some entry =>
      rcases entry with ⟨layout, action⟩
      have isWordAgain : HasString (cut.touch (base + front.length) (word.length + 1)).cells
          (base + front.length) word := isWord
      simp only
      rw [FaultM.run_bind (strlen_of_hasString isWordAgain)]
      let later := (cut.touch (base + front.length) (word.length + 1)).touch
        (base + front.length) (word.length + 1)
      have got : (get : MemM Memory) later = some (later, later) := rfl
      rw [FaultM.run_bind got]
      cases parsed : parsePattern layout action (base + word.length + 1) later with
      | none =>
          rw [FaultM.run_bind_none parsed]
          rfl
      | some ran =>
          rw [FaultM.run_bind parsed]
          rfl

end Dispatch

/-! ## Isolation -/

/-- Nothing outside of the statement was touched, the action was applied to the
words after the first one, and the effect is what the words mean. -/
structure Isolates (rule : Argument) (dispatched : Dispatched) (touched : List Nat) : Prop where
  inside : ∀ address, address ∈ touched →
    rule.address ≤ address ∧ address ≤ rule.address + rule.text.length
  operands : ∀ argument, dispatched.argument = some argument →
    words argument = (words rule.text).tail
  calls : dispatched.calls = (meaning (words rule.text)).1
  reported : dispatched.reported = if (meaning (words rule.text)).2 then some rule.text else none

def Step.Isolated (step : Step) : Prop :=
  ∃ dispatched, step.dispatched = some dispatched ∧
    Isolates step.rule dispatched step.touched

def leadingSpaces (text : CString) : Nat := (text.takeWhile (· = space)).length

/-- The pointer to the words after the keyword is right: the keyword starts the
statement and something follows it, or spaces before the keyword make the end
of the keyword look like the words that follow. -/
def WellSpaced (text : CString) : Prop :=
  match words text with
  | [] => False
  | word :: rest =>
      keywords.lookup word = none ∨
      leadingSpaces text = 0 ∧ text ≠ word ∨
      leadingSpaces text = 1 ∧ rest = [] ∨
      2 ≤ leadingSpaces text ∧ rest = [word.drop (word.length + 1 - leadingSpaces text)]

instance (text : CString) : Decidable (WellSpaced text) :=
  match isWords : words text with
  | [] => isFalse (by rw [WellSpaced, isWords]; exact id)
  | word :: rest =>
      decidable_of_iff (keywords.lookup word = none ∨
        leadingSpaces text = 0 ∧ text ≠ word ∨
        leadingSpaces text = 1 ∧ rest = [] ∨
        2 ≤ leadingSpaces text ∧ rest = [word.drop (word.length + 1 - leadingSpaces text)])
        (by rw [WellSpaced, isWords])

section Isolation

variable {text front word rest : CString}

theorem FirstWord.leadingSpaces_eq (first : FirstWord text front word rest) :
    leadingSpaces text = front.length := by
  rcases first with ⟨rfl, spaces, someWord, plain, stops⟩
  rcases List.exists_cons_of_ne_nil someWord with ⟨byte, tail, rfl⟩
  rw [leadingSpaces, List.cons_append, takeWhile_front (delimits_of_spaces spaces)]
  exact decide_eq_false (plain byte (List.mem_cons_self ..))

theorem FirstWord.wellSpaced_iff (first : FirstWord text front word rest) :
    WellSpaced text ↔ keywords.lookup word = none ∨
      front.length = 0 ∧ rest ≠ [] ∨
      front.length = 1 ∧ words rest = [] ∨
      2 ≤ front.length ∧ words rest = [word.drop (word.length + 1 - front.length)] := by
  rw [WellSpaced, first.words_eq, first.leadingSpaces_eq]
  have bare : front.length = 0 ∧ text ≠ word ↔ front.length = 0 ∧ rest ≠ [] := by
    refine and_congr_right fun noFront => ?_
    obtain rfl : front = [] := List.length_eq_zero_iff.mp noFront
    rw [first.split]
    simp
  simp only [bare]

theorem FirstWord.words_drop (first : FirstWord text front word rest) (leads : front ≠ []) :
    words ((front ++ word).drop (word.length + 1)) =
      if front.length = 1 then [] else [word.drop (word.length + 1 - front.length)] := by
  have someFront : front.length ≠ 0 := by simpa using leads
  have delimits : ∀ byte, byte ∈ front.drop (word.length + 1) → decide (byte = space) = true :=
    fun byte member => decide_eq_true (first.spaces byte (List.mem_of_mem_drop member))
  rw [List.drop_append, words, tokens_of_delimiters delimits]
  by_cases isOne : front.length = 1
  · rw [if_pos isOne, isOne, Nat.add_sub_cancel, List.drop_length, tokens_nil]
  · rw [if_neg isOne]
    apply tokens_of_plain
    · simp
      have := List.length_pos_of_ne_nil first.someWord
      omega
    · exact fun byte member => decide_eq_false (first.plain byte (List.mem_of_mem_drop member))

variable {memory : Memory} {base : Nat}

theorem FirstWord.argument (first : FirstWord text front word rest)
    (follows : front ≠ [] ∨ rest ≠ []) {middle : List Byte}
    (cut : HasString middle base (front ++ word))
    (following : ∀ byte back, rest = byte :: back →
      HasString middle (base + front.length + word.length + 1) back) :
    ∃ argument, HasString middle (base + word.length + 1) argument ∧
      base + word.length + 1 + argument.length ≤ base + text.length ∧
      (front = [] → words argument = words rest) ∧
      (front ≠ [] → words argument =
        if front.length = 1 then [] else [word.drop (word.length + 1 - front.length)]) := by
  by_cases leads : front = []
  · subst leads
    cases rest with
    | nil => simp at follows
    | cons byte back =>
        rcases first.stops byte rfl with rfl
        refine ⟨back, following space back rfl, ?_, fun _ => (words_space back).symm,
          fun leads => absurd rfl leads⟩
        rw [first.split]
        simp
        omega
  · have someFront := List.length_pos_of_ne_nil leads
    have whole : (front ++ word).take (word.length + 1) ++ (front ++ word).drop (word.length + 1) =
        front ++ word := List.take_append_drop _ _
    rw [← whole] at cut
    have dropped := cut.suffix
    rw [List.length_take, List.length_append, Nat.min_eq_left (by omega), ← Nat.add_assoc]
      at dropped
    refine ⟨_, dropped, ?_, fun noFront => absurd noFront leads,
      fun _ => first.words_drop leads⟩
    rw [List.length_drop, first.split]
    simp
    omega

theorem FirstWord.isolates_unknown (first : FirstWord text front word rest)
    (present : HasString memory.cells base text) (untouched : memory.touched = [])
    (unknown : keywords.lookup word = none) :
    ∃ dispatched after, dispatch base memory = some (dispatched, after) ∧
      Confined base (base + text.length) memory after ∧
      Isolates { address := base, text } dispatched after.touched := by
  rcases first.dispatch_eq present with ⟨middle, confined, -, -, dispatches⟩
  rw [unknown] at dispatches
  refine ⟨_, middle, dispatches, confined, ?_⟩
  constructor
  · exact fun address touched => confined.inside untouched touched
  · nofun
  · simp [meaning, first.words_eq, unknown]
  · simp [meaning, first.words_eq, unknown]

theorem FirstWord.dispatch_known (first : FirstWord text front word rest)
    (present : HasString memory.cells base text) (follows : front ≠ [] ∨ rest ≠ [])
    {layout : Layout} {action : Nat}
    (isKeyword : keywords.lookup word = some (layout, action)) :
    ∃ argument after, dispatch base memory =
        some (Dispatched.ofParsed text argument (parseWords layout action (words argument)),
          after) ∧
      Confined base (base + text.length) memory after ∧
      (front = [] → words argument = words rest) ∧
      (front ≠ [] → words argument =
        if front.length = 1 then [] else [word.drop (word.length + 1 - front.length)]) := by
  rcases first.dispatch_eq present with ⟨middle, confined, cut, following, dispatches⟩
  rcases first.argument follows cut following with ⟨argument, given, fits, isRest, isEnd⟩
  let later := middle.touch (base + front.length) (word.length + 1)
  have givenLater : HasString later.cells (base + word.length + 1) argument := given
  rcases parsePattern_parses isKeyword argument later _ givenLater with
    ⟨after, parsed, parserConfined⟩
  have room := first.length_le
  have laterConfined : Confined base (base + text.length) memory later :=
    confined.trans (Confined.touch _ (by omega) (by omega))
  rw [isKeyword] at dispatches
  simp only [Memory.touch_cells, given.stringAt_eq] at dispatches
  rw [parsed] at dispatches
  exact ⟨argument, after, dispatches, laterConfined.trans (parserConfined.mono (by omega) fits),
    isRest, isEnd⟩

/-- A keyword alone: the parser is given what follows the statement. -/
theorem FirstWord.dispatch_bare (first : FirstWord text [] word [])
    (present : HasString memory.cells base text) {layout : Layout} {action : Nat}
    (isKeyword : keywords.lookup word = some (layout, action)) {dispatched : Dispatched}
    {after : Memory} (dispatches : dispatch base memory = some (dispatched, after)) :
    base + text.length + 1 ∈ after.touched := by
  rcases first.dispatch_eq present with ⟨middle, -, -, -, isDispatch⟩
  rw [isKeyword] at isDispatch
  simp only [isDispatch] at dispatches
  rcases Option.map_eq_some_iff.mp dispatches with ⟨⟨parsed, last⟩, ran, isResult⟩
  cases isResult
  have touched := parsePattern_touches ran
  have isWord : text = word := by simpa using first.split
  rwa [isWord]

theorem operands_iff (follows : front ≠ [] ∨ rest ≠ []) {argument : CString}
    (isRest : front = [] → words argument = words rest)
    (isEnd : front ≠ [] → words argument =
      if front.length = 1 then [] else [word.drop (word.length + 1 - front.length)]) :
    words argument = words rest ↔
      front.length = 0 ∧ rest ≠ [] ∨
      front.length = 1 ∧ words rest = [] ∨
      2 ≤ front.length ∧ words rest = [word.drop (word.length + 1 - front.length)] := by
  by_cases leads : front = []
  · have noLength : front.length = 0 := List.length_eq_zero_iff.mpr leads
    have someRest : rest ≠ [] := follows.resolve_left (not_not.mpr leads)
    exact iff_of_true (isRest leads) (Or.inl ⟨noLength, someRest⟩)
  · have someLength := List.length_pos_of_ne_nil leads
    rw [isEnd leads, eq_comm]
    by_cases isOne : front.length = 1
    · simp [isOne]
    · have several : 2 ≤ front.length := by omega
      simp [isOne, several, someLength.ne']

theorem FirstWord.isolates_known (first : FirstWord text front word rest)
    {layout : Layout} {action : Nat}
    (isKeyword : keywords.lookup word = some (layout, action)) {argument : CString}
    (same : words argument = words rest) {touched : List Nat}
    (inside : ∀ address, address ∈ touched → base ≤ address ∧ address ≤ base + text.length) :
    Isolates { address := base, text }
      (Dispatched.ofParsed text argument (parseWords layout action (words argument)))
      touched := by
  rw [same]
  refine ⟨inside, ?_, ?_, ?_⟩
  · rintro other isArgument
    cases isArgument
    rw [same, first.words_eq, List.tail_cons]
  · simp [Dispatched.ofParsed, meaning, first.words_eq, isKeyword]
  · simp [Dispatched.ofParsed, meaning, first.words_eq, isKeyword]

theorem isolates_of_wellSpaced (present : HasString memory.cells base text)
    (untouched : memory.touched = []) (wellSpaced : WellSpaced text) :
    ∃ dispatched after, dispatch base memory = some (dispatched, after) ∧
      Confined base (base + text.length) memory after ∧
      Isolates { address := base, text } dispatched after.touched := by
  rcases firstWord_or_spaces text with spaces | ⟨front, word, rest, first⟩
  · rw [WellSpaced, words_of_spaces spaces] at wellSpaced
    exact wellSpaced.elim
  · cases isKeyword : keywords.lookup word with
    | none => exact first.isolates_unknown present untouched isKeyword
    | some entry =>
        rcases entry with ⟨layout, action⟩
        have spaced := (first.wellSpaced_iff.mp wellSpaced).resolve_left (by simp [isKeyword])
        have follows : front ≠ [] ∨ rest ≠ [] := by
          rcases spaced with ⟨-, someRest⟩ | ⟨isOne, -⟩ | ⟨several, -⟩
          · exact Or.inr someRest
          · exact Or.inl (List.ne_nil_of_length_pos (by omega))
          · exact Or.inl (List.ne_nil_of_length_pos (by omega))
        rcases first.dispatch_known present follows isKeyword with
          ⟨argument, after, dispatches, confined, isRest, isEnd⟩
        refine ⟨_, after, dispatches, confined, first.isolates_known isKeyword
          ((operands_iff follows isRest isEnd).mpr spaced) ?_⟩
        exact fun address touched => confined.inside untouched touched

theorem wellSpaced_of_isolates (present : HasString memory.cells base text)
    {dispatched : Dispatched} {after : Memory}
    (dispatches : dispatch base memory = some (dispatched, after))
    (isolates : Isolates { address := base, text } dispatched after.touched) :
    WellSpaced text := by
  rcases firstWord_or_spaces text with spaces | ⟨front, word, rest, first⟩
  · rw [dispatch_spaces present spaces] at dispatches
    cases dispatches
  · rw [first.wellSpaced_iff]
    cases isKeyword : keywords.lookup word with
    | none => exact Or.inl rfl
    | some entry =>
        rcases entry with ⟨layout, action⟩
        apply Or.inr
        by_cases follows : front ≠ [] ∨ rest ≠ []
        · rcases first.dispatch_known present follows isKeyword with
            ⟨argument, last, isDispatch, -, isRest, isEnd⟩
          rw [isDispatch] at dispatches
          cases dispatches
          have same := isolates.operands argument rfl
          rw [first.words_eq, List.tail_cons] at same
          exact (operands_iff follows isRest isEnd).mp same
        · rcases not_or.mp follows with ⟨noFront, noRest⟩
          rcases not_not.mp noFront with rfl
          rcases not_not.mp noRest with rfl
          have outside := isolates.inside _ (first.dispatch_bare present isKeyword dispatches)
          exact absurd outside.2 (by simp)

end Isolation

/-! ## Runs -/

structure Placed (cells : List Byte) (rules : List Argument) : Prop where
  present : ∀ rule, rule ∈ rules → HasString cells rule.address rule.text
  ordered : rules.Pairwise fun rule later => rule.address + rule.text.length < later.address

/-- The loop has come to every statement, and isolated each of them. -/
structure RunIsolated (rules : List Argument) (steps : List Step) : Prop where
  complete : steps.map Step.rule = rules
  isolated : ∀ step, step ∈ steps → step.Isolated

theorem runIsolated_cons {rules : List Argument} (step : Step) {steps : List Step} :
    RunIsolated (step.rule :: rules) (step :: steps) ↔
      step.Isolated ∧ RunIsolated rules steps := by
  constructor
  · rintro ⟨complete, isolated⟩
    rw [List.map_cons, List.cons.injEq] at complete
    exact ⟨isolated step (List.mem_cons_self ..), complete.2,
      fun other member => isolated other (List.mem_cons_of_mem _ member)⟩
  · rintro ⟨first, complete, isolated⟩
    refine ⟨by rw [List.map_cons, complete], fun other member => ?_⟩
    rcases List.mem_cons.mp member with rfl | later
    · exact first
    · exact isolated other later

/-- A statement that stays inside its own string leaves the later ones as they
are. -/
theorem Placed.after {rule : Argument} {rules : List Argument} {cells : List Byte}
    {after : Memory} (placed : Placed cells (rule :: rules))
    (confined : Confined rule.address (rule.address + rule.text.length)
      { cells, touched := [] } after) : Placed after.cells rules := by
  rcases List.pairwise_cons.mp placed.ordered with ⟨apart, ordered⟩
  refine ⟨fun later member => ?_, ordered⟩
  have behind := apart later member
  exact confined.cells.hasString (Or.inr (by omega))
    (placed.present later (List.mem_cons_of_mem _ member))

theorem runRules_of_dispatch {rule : Argument} {cells : List Byte} {dispatched : Dispatched}
    {after : Memory}
    (dispatches : dispatch rule.address { cells, touched := [] } = some (dispatched, after))
    (rules : List Argument) :
    (runRules (rule :: rules) cells).1 =
      { rule, dispatched := some dispatched, touched := after.touched } ::
        (runRules rules after.cells).1 := by
  rw [runRules, dispatches]

theorem runRules_isolated_iff (rules : List Argument) : ∀ {cells : List Byte},
    Placed cells rules →
      (RunIsolated rules (runRules rules cells).1 ↔
        ∀ rule, rule ∈ rules → WellSpaced rule.text) := by
  induction rules with
  | nil =>
      intro cells placed
      exact iff_of_true ⟨rfl, nofun⟩ nofun
  | cons rule rules induction =>
      intro cells placed
      have present : HasString ({ cells, touched := [] } : Memory).cells rule.address rule.text :=
        placed.present rule (List.mem_cons_self ..)
      rw [List.forall_mem_cons]
      by_cases wellSpaced : WellSpaced rule.text
      · rcases isolates_of_wellSpaced present rfl wellSpaced with
          ⟨dispatched, after, dispatches, confined, isolates⟩
        let step : Step := { rule, dispatched := some dispatched, touched := after.touched }
        rw [runRules_of_dispatch dispatches]
        apply (runIsolated_cons step).trans
        rw [induction (placed.after confined)]
        exact and_congr_left' (iff_of_true ⟨dispatched, rfl, isolates⟩ wellSpaced)
      · refine iff_of_false (fun isolated => wellSpaced ?_) (fun all => wellSpaced all.1)
        cases dispatches : dispatch rule.address { cells, touched := [] } with
        | none =>
            rw [runRules, dispatches] at isolated
            rcases isolated.isolated _ (List.mem_cons_self ..) with ⟨dispatched, isDispatched, -⟩
            cases isDispatched
        | some ran =>
            rcases ran with ⟨dispatched, after⟩
            rw [runRules_of_dispatch dispatches] at isolated
            rcases isolated.isolated _ (List.mem_cons_self ..) with ⟨other, isDispatched, isolates⟩
            cases isDispatched
            exact wellSpaced_of_isolates present dispatches isolates

/-! ## The statements of `argv` -/

theorem placed_placeFrom (beyond : List Byte) (argv : List CString)
    (strings : ∀ text, text ∈ argv → 0 ∉ text) : ∀ (cells : List Byte) (base : Nat),
    cells.drop base = argvCells argv beyond →
      Placed cells (placeFrom base argv) ∧
        ∀ argument, argument ∈ placeFrom base argv → base ≤ argument.address := by
  induction argv with
  | nil =>
      intro cells base here
      exact ⟨⟨nofun, List.Pairwise.nil⟩, nofun⟩
  | cons text argv induction =>
      intro cells base here
      have isHere : cells.drop base = text ++ 0 :: argvCells argv beyond := by
        simpa [argvCells] using here
      have present := HasString.of_drop (strings text (List.mem_cons_self ..)) isHere
      have rest : cells.drop (base + text.length + 1) = argvCells argv beyond := by
        rw [Nat.add_assoc, ← List.drop_drop, isHere, ← List.drop_drop, List.drop_left]
        rfl
      rcases induction
          (fun other member => strings other (List.mem_cons_of_mem _ member)) cells _ rest with
        ⟨placed, behind⟩
      refine ⟨⟨?_, List.Pairwise.cons (fun later member => ?_) placed.ordered⟩, ?_⟩
      · rintro argument (_ | ⟨_, member⟩)
        · exact present
        · exact placed.present argument member
      · have := behind later member
        exact this
      · rintro argument (_ | ⟨_, member⟩)
        · exact Nat.le_refl _
        · have := behind argument member
          omega

theorem Placed.sublist {cells : List Byte} {some all : List Argument} (placed : Placed cells all)
    (sublist : some.Sublist all) : Placed cells some where
  present := fun rule member => placed.present rule (sublist.subset member)
  ordered := placed.ordered.sublist sublist

theorem readOptions_rules (arguments : List Argument) : ∀ {options result : Options},
    readOptions arguments options = some result →
      ∃ rules, result.rules = options.rules ++ rules ∧ rules.Sublist arguments := by
  intro options result read
  fun_induction readOptions arguments options with
  | case1 options =>
      cases read
      exact ⟨[], (List.append_nil _).symm, List.Sublist.refl _⟩
  | case2 argument rest options dashes isLive induction =>
      rcases induction read with ⟨rules, isRules, sublist⟩
      exact ⟨rules, isRules, sublist.cons _⟩
  | case3 argument rest options dashes notLive isMinimal induction =>
      rcases induction read with ⟨rules, isRules, sublist⟩
      exact ⟨rules, isRules, sublist.cons _⟩
  | case4 => cases read
  | case5 argument options dashes notLive notMinimal isLoad file rest induction =>
      rcases induction read with ⟨rules, isRules, sublist⟩
      exact ⟨rules, isRules, (sublist.cons _).cons _⟩
  | case6 => cases read
  | case7 argument options dashes notLive notMinimal notLoad isSave file rest induction =>
      rcases induction read with ⟨rules, isRules, sublist⟩
      exact ⟨rules, isRules, (sublist.cons _).cons _⟩
  | case8 => cases read
  | case9 argument rest options noDashes induction =>
      rcases induction read with ⟨rules, isRules, sublist⟩
      exact ⟨argument :: rules, by rw [isRules, List.append_assoc]; rfl, sublist.cons_cons _⟩

def dispatchedRules (files : PolicyFiles) (argv : List CString) : List Argument :=
  match readOptions (placeFrom 0 argv).tail Options.start with
  | none => []
  | some options =>
      if files.load ((options.infile.map Argument.text).getD selinuxPolicy) then options.rules
      else []

theorem dispatchedRules_sublist (files : PolicyFiles) (argv : List CString) :
    (dispatchedRules files argv).Sublist (placeFrom 0 argv) := by
  rw [dispatchedRules]
  split
  · exact List.nil_sublist _
  · rename_i options read
    split
    · rcases readOptions_rules _ read with ⟨rules, isRules, sublist⟩
      rw [isRules]
      exact sublist.trans (List.tail_sublist _)
    · exact List.nil_sublist _

theorem magiskpolicyMain_steps (files : PolicyFiles) (argv : List CString) (beyond : List Byte) :
    (magiskpolicyMain files argv beyond).steps =
      (runRules (dispatchedRules files argv) (argvCells argv beyond)).1 := by
  by_cases short : argv.length < 2
  · have noRules : dispatchedRules files argv = [] := by
      have noArguments : (placeFrom 0 argv).tail = [] := by
        match argv, short with
        | [], _ => rfl
        | [_], _ => rfl
      simp [dispatchedRules, noArguments, readOptions, Options.start]
    simp [magiskpolicyMain, short, noRules, runRules]
  · simp only [magiskpolicyMain, short, if_false, dispatchedRules]
    cases read : readOptions (placeFrom 0 argv).tail Options.start with
    | none => rfl
    | some options =>
        by_cases loads : files.load ((options.infile.map Argument.text).getD selinuxPolicy) = true
        · simp only [loads, Bool.not_true, Bool.false_eq_true, if_false, if_true]
          split
          · rfl
          · rfl
        · simp only [loads, Bool.not_false, if_true, Bool.false_eq_true, if_false]
          rfl

theorem placed_dispatchedRules (files : PolicyFiles) {argv : List CString}
    (strings : ∀ text, text ∈ argv → 0 ∉ text) (beyond : List Byte) :
    Placed (argvCells argv beyond) (dispatchedRules files argv) :=
  (placed_placeFrom beyond argv strings _ 0 rfl).1.sublist (dispatchedRules_sublist files argv)

/-- Every statement of a run is isolated exactly when each of them is well
spaced. -/
theorem magiskpolicyMain_isolated_iff (files : PolicyFiles) {argv : List CString}
    (strings : ∀ text, text ∈ argv → 0 ∉ text) (beyond : List Byte) :
    RunIsolated (dispatchedRules files argv) (magiskpolicyMain files argv beyond).steps ↔
      ∀ rule, rule ∈ dispatchedRules files argv → WellSpaced rule.text := by
  rw [magiskpolicyMain_steps]
  exact runRules_isolated_iff _ (placed_dispatchedRules files strings beyond)

def anyFile : PolicyFiles where
  load := fun _ => true
  dump := fun _ => true

theorem spacedStatements_isolated :
    RunIsolated
      (dispatchedRules anyFile [ascii "magiskpolicy", ascii "allow a b c *", ascii "create d"])
      (magiskpolicyMain anyFile
        [ascii "magiskpolicy", ascii "allow a b c *", ascii "create d"] []).steps :=
  (magiskpolicyMain_isolated_iff anyFile (by decide) []).mpr (by decide +kernel)

/-- A keyword alone, a statement without words and a space before the keyword
are not isolated. -/
theorem straySpaces_not_isolated :
    ¬RunIsolated (dispatchedRules anyFile [ascii "magiskpolicy", ascii "allow", ascii "a b c d"])
      (magiskpolicyMain anyFile [ascii "magiskpolicy", ascii "allow", ascii "a b c d"] []).steps ∧
    ¬RunIsolated (dispatchedRules anyFile [ascii "magiskpolicy", ascii " "])
      (magiskpolicyMain anyFile [ascii "magiskpolicy", ascii " "] []).steps ∧
    ¬RunIsolated (dispatchedRules anyFile [ascii "magiskpolicy", ascii " create d"])
      (magiskpolicyMain anyFile [ascii "magiskpolicy", ascii " create d"] []).steps := by
  refine ⟨?_, ?_, ?_⟩
  · rw [magiskpolicyMain_steps,
      runRules_isolated_iff _ (placed_dispatchedRules anyFile (by decide) [])]
    decide +kernel
  · rw [magiskpolicyMain_steps,
      runRules_isolated_iff _ (placed_dispatchedRules anyFile (by decide) [])]
    decide +kernel
  · rw [magiskpolicyMain_steps,
      runRules_isolated_iff _ (placed_dispatchedRules anyFile (by decide) [])]
    decide +kernel

end SuBinary.Magiskpolicy
