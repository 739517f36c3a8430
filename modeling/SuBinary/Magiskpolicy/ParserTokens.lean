import SuBinary.Magiskpolicy.ParserWords

/-! # The parsers on tokens

A brace at an end of a word is a token of its own. The bracketed parsers look
at a word again after they have taken a brace off it, and close a bracket
before they store the name in front of the brace; their result is still that of
reading the detached tokens in order.
-/

namespace SuBinary.Magiskpolicy

open SuBinary

/-! ## Tokens -/

inductive Token
  | opening
  | closing
  | name (word : CString)
deriving DecidableEq

/-- Detach the leading opening braces and the trailing closing braces of a
word. -/
def detach (word : CString) : List Token :=
  let opened := word.dropWhile (· = openByte)
  let name := opened.rdropWhile (· = closeByte)
  (word.takeWhile (· = openByte)).map (fun _ => .opening) ++
    (if name = [] then [] else [.name name]) ++
    (opened.rtakeWhile (· = closeByte)).map (fun _ => .closing)

def detachedTokens (text : CString) : List Token := (words text).flatMap detach

theorem detach_nil : detach [] = [] := by simp [detach]

theorem detach_open (rest : CString) : detach (openByte :: rest) = .opening :: detach rest := by
  simp [detach]

theorem dropWhile_open {word : CString} (noOpen : word.head? ≠ some openByte) :
    word.dropWhile (· = openByte) = word ∧ word.takeWhile (· = openByte) = [] := by
  cases word with
  | nil => exact ⟨rfl, rfl⟩
  | cons byte rest =>
      have other : byte ≠ openByte := by simpa using noOpen
      simp [other]

theorem detach_close {front : CString} (noOpen : (front ++ [closeByte]).head? ≠ some openByte) :
    detach (front ++ [closeByte]) = detach front ++ [.closing] := by
  have noOpenFront : front.head? ≠ some openByte := by
    cases front with
    | nil => nofun
    | cons byte rest => simpa using noOpen
  rcases dropWhile_open noOpen with ⟨whole, noFront⟩
  rcases dropWhile_open noOpenFront with ⟨wholeFront, noFrontOpen⟩
  simp only [detach, whole, noFront, wholeFront, noFrontOpen]
  simp

theorem detach_name {word : CString} (someWord : word ≠ [])
    (noOpen : word.head? ≠ some openByte) (noClose : word.getLast? ≠ some closeByte) :
    detach word = [.name word] := by
  rcases dropWhile_open noOpen with ⟨whole, noFront⟩
  rcases List.eq_nil_or_concat' word |>.resolve_left someWord with ⟨front, last, rfl⟩
  have other : last ≠ closeByte := by simpa using noClose
  simp only [detach, whole, noFront]
  simp [other]

/-! ## Reading tokens -/

def takeToken (pattern : Pattern) (scan : Scan CString) : Token → Option (Scan CString)
  | .opening => (pattern.openBrace scan).map Scan.advance
  | .closing => (pattern.closeBrace scan).map Scan.advance
  | .name word => (pattern.addName (operand word) scan).map Scan.advance

def takeTokens (pattern : Pattern) (tokens : List Token) (scan : Scan CString) :
    Option (Scan CString) :=
  tokens.foldlM (takeToken pattern) scan

section Reading

variable (pattern : Pattern)

theorem takeTokens_append (front back : List Token) (scan : Scan CString) :
    takeTokens pattern (front ++ back) scan =
      (takeTokens pattern front scan).bind (takeTokens pattern back) :=
  List.foldlM_append

theorem takeTokens_cons (token : Token) (rest : List Token) (scan : Scan CString) :
    takeTokens pattern (token :: rest) scan =
      (takeToken pattern scan token).bind (takeTokens pattern rest) :=
  List.foldlM_cons

theorem takeTokens_singleton (token : Token) (scan : Scan CString) :
    takeTokens pattern [token] scan = takeToken pattern scan token := by
  simp [takeTokens]

variable {pattern} {scan : Scan CString}

theorem advance_inside (inside : scan.inBracket = true) : scan.advance = scan := if_pos inside

theorem advance_outside (outside : scan.inBracket = false) :
    scan.advance = { scan with state := scan.state + 1 } :=
  if_neg (by simp [outside])

theorem addName_bracket (name : Option CString) (scan : Scan CString) (inBracket : Bool) :
    pattern.addName name { scan with inBracket } =
      (pattern.addName name scan).map fun added => { added with inBracket } := by
  simp only [Pattern.addName]
  cases pattern.slot scan.state with
  | none => rfl
  | some slot => cases slot <;> rfl

theorem addName_some {name : Option CString} {added : Scan CString}
    (adds : pattern.addName name scan = some added) :
    added.state = scan.state ∧ added.inBracket = scan.inBracket := by
  rw [Pattern.addName] at adds
  split at adds
  · cases adds
  all_goals
    cases adds
    exact ⟨rfl, rfl⟩

theorem openBrace_some {opened : Scan CString} :
    pattern.openBrace scan = some opened ↔
      scan.inBracket = false ∧ pattern.plain scan.state = false ∧
        { scan with inBracket := true } = opened := by
  simp [Pattern.openBrace, and_assoc]

theorem closeBrace_some {closed : Scan CString} :
    pattern.closeBrace scan = some closed ↔
      scan.inBracket = true ∧ pattern.plain scan.state = false ∧
        { scan with inBracket := false } = closed := by
  simp [Pattern.closeBrace, and_assoc]

theorem closeBrace_outside (outside : scan.inBracket = false) :
    pattern.closeBrace scan = none := by
  simp [Pattern.closeBrace, outside]

/-- A second closing brace is an error, whatever comes before the first. -/
theorem takeTokens_close_close (front : List Token) (scan : Scan CString) :
    takeTokens pattern (front ++ [.closing, .closing]) scan = none := by
  rw [takeTokens_append]
  cases takeTokens pattern front scan with
  | none => rfl
  | some middle =>
      rw [Option.bind_some, takeTokens_cons, takeToken]
      cases closed : pattern.closeBrace middle with
      | none => rfl
      | some outside =>
          rcases closeBrace_some.mp closed with ⟨-, -, rfl⟩
          rfl

/-- Storing the name before or after the bracket is closed makes no
difference. -/
theorem takeTokens_name_close (word : CString) (scan : Scan CString) :
    takeTokens pattern [.name word, .closing] scan =
      (pattern.closeBrace scan).bind fun closed => takeToken pattern closed (.name word) := by
  rw [takeTokens_cons, takeToken]
  cases added : pattern.addName (operand word) scan with
  | none =>
      cases closed : pattern.closeBrace scan with
      | none => rfl
      | some outside =>
          rcases closeBrace_some.mp closed with ⟨-, -, rfl⟩
          simp [takeToken, addName_bracket, added]
  | some next =>
      rcases addName_some added with ⟨sameState, sameBracket⟩
      cases closed : pattern.closeBrace scan with
      | none =>
          by_cases inside : scan.inBracket = true
          · rw [Option.map_some, advance_inside (sameBracket.trans inside)]
            have fails : pattern.closeBrace next = none := by
              simpa [Pattern.closeBrace, sameState, sameBracket] using closed
            simp [takeTokens, takeToken, fails]
          · have outside : next.inBracket = false := by simpa [sameBracket] using inside
            rw [Option.map_some, advance_outside outside]
            simp [takeTokens, takeToken, closeBrace_outside, outside]
      | some outside =>
          rcases closeBrace_some.mp closed with ⟨inside, notPlain, rfl⟩
          have closes : pattern.closeBrace next = some { next with inBracket := false } :=
            closeBrace_some.mpr ⟨sameBracket.trans inside, by rw [sameState, notPlain], rfl⟩
          rw [Option.map_some, advance_inside (sameBracket.trans inside)]
          simp [takeTokens, takeToken, addName_bracket, added, closes]

theorem visitWord_close (pattern : Pattern) {front : CString}
    (noOpen : (front ++ [closeByte]).head? ≠ some openByte)
    (scan : Scan CString) :
    visitWord pattern (front ++ [closeByte]) scan =
      (pattern.closeBrace scan).elim .reject fun closed =>
        if front ≠ [] then .again front closed else .next closed.advance := by
  rw [visitWord, if_neg noOpen, if_pos (by simp), List.dropLast_concat]
  cases pattern.closeBrace scan with
  | none => rfl
  | some closed => rfl

section Word

variable {rest : List CString} {outcome : Scan CString → Option (Scan CString)}
  (reads : ∀ scan, Reads (visitWord pattern) rest scan (outcome scan))
include reads

theorem reads_name {word : CString}
    (noOpen : word.head? ≠ some openByte) (noClose : word.getLast? ≠ some closeByte)
    (scan : Scan CString) :
    Reads (visitWord pattern) (word :: rest) scan
      ((takeToken pattern scan (.name word)).bind outcome) := by
  rw [takeToken]
  cases added : pattern.addName (operand word) scan with
  | none => exact Reads.reject (by simp [visitWord, noOpen, noClose, added])
  | some next => exact Reads.next (by simp [visitWord, noOpen, noClose, added]) (reads _)

/-- A word that ends with a closing brace. The part before it is looked at
again, outside the bracket. -/
theorem reads_close {front : CString} (noOpen : (front ++ [closeByte]).head? ≠ some openByte)
    (scan : Scan CString) :
    Reads (visitWord pattern) ((front ++ [closeByte]) :: rest) scan
      ((takeTokens pattern (detach front ++ [.closing]) scan).bind outcome) := by
  have visited := visitWord_close pattern noOpen scan
  rcases List.eq_nil_or_concat' front with rfl | ⟨earlier, last, rfl⟩
  · rw [detach_nil, List.nil_append, List.nil_append, takeTokens_singleton, takeToken]
    cases closed : pattern.closeBrace scan with
    | none => exact Reads.reject (by rw [← List.nil_append [closeByte], visited, closed]; rfl)
    | some outside =>
        exact Reads.next (by rw [← List.nil_append [closeByte], visited, closed]; rfl) (reads _)
  · have noOpenFront : (earlier ++ [last]).head? ≠ some openByte := by
      simpa [List.head?_append] using noOpen
    by_cases closes : last = closeByte
    · subst closes
      have fails : takeTokens pattern (detach (earlier ++ [closeByte]) ++ [.closing]) scan =
          none := by
        rw [detach_close noOpenFront, List.append_assoc]
        exact takeTokens_close_close _ scan
      rw [fails]
      cases closed : pattern.closeBrace scan with
      | none => exact Reads.reject (by rw [visited, closed]; rfl)
      | some outside =>
          rcases closeBrace_some.mp closed with ⟨-, -, rfl⟩
          refine Reads.again (by rw [visited, closed]; exact if_pos (by simp)) (Reads.reject ?_)
          rw [visitWord, if_neg noOpenFront, if_pos (by simp), closeBrace_outside rfl]
    · have noClose : (earlier ++ [last]).getLast? ≠ some closeByte := by simpa using closes
      rw [detach_name (by simp) noOpenFront noClose, List.singleton_append,
        takeTokens_name_close]
      cases closed : pattern.closeBrace scan with
      | none => exact Reads.reject (by rw [visited, closed]; rfl)
      | some outside =>
          apply Reads.again (by rw [visited, closed]; exact if_pos (by simp))
          exact reads_name reads noOpenFront noClose outside

theorem reads_word {word : CString} (someWord : word ≠ []) (scan : Scan CString) :
    Reads (visitWord pattern) (word :: rest) scan
      ((takeTokens pattern (detach word) scan).bind outcome) := by
  induction word generalizing scan with
  | nil => exact absurd rfl someWord
  | cons byte word induction =>
      by_cases opens : byte = openByte
      · subst opens
        rw [detach_open, takeTokens_cons, takeToken]
        cases opened : pattern.openBrace scan with
        | none => exact Reads.reject (by simp [visitWord, opened])
        | some inside =>
            rcases openBrace_some.mp opened with ⟨-, -, rfl⟩
            rw [Option.map_some, advance_inside rfl, Option.bind_some]
            cases word with
            | nil =>
                rw [detach_nil]
                exact Reads.next (by simp [visitWord, opened, Scan.advance]) (reads _)
            | cons second word =>
                exact Reads.again (by simp [visitWord, opened]) (induction (by simp) _)
      · have noOpen : (byte :: word).head? ≠ some openByte := by simpa using opens
        rcases List.eq_nil_or_concat' (byte :: word) |>.resolve_left someWord with
          ⟨front, last, isWord⟩
        rw [isWord] at noOpen ⊢
        by_cases closes : last = closeByte
        · subst closes
          rw [detach_close noOpen]
          exact reads_close reads noOpen scan
        · have noClose : (front ++ [last]).getLast? ≠ some closeByte := by simpa using closes
          rw [detach_name (by simp) noOpen noClose, takeTokens_singleton]
          exact reads_name reads noOpen noClose scan

end Word

/-- Reading the words of a statement is reading its detached tokens. -/
theorem reads_words {list : List CString} (someWords : ∀ word, word ∈ list → word ≠ [])
    (scan : Scan CString) :
    Reads (visitWord pattern) list scan (takeTokens pattern (list.flatMap detach) scan) := by
  induction list generalizing scan with
  | nil => exact Reads.done scan
  | cons word list induction =>
      rw [List.flatMap_cons, takeTokens_append]
      have rest := induction fun other member => someWords other (List.mem_cons_of_mem _ member)
      exact reads_word rest (someWords word (List.mem_cons_self ..)) scan

end Reading

/-! ## The parsers -/

def parseTokens (pattern : Pattern) (perform : Scan CString → Parsed) (tokens : List Token) :
    Parsed :=
  finishBracketed pattern perform (takeTokens pattern tokens Scan.start)

/-- The bracketed parsers do not fault, stay inside the statement and read its
detached tokens. -/
theorem parseBracketed_parses_tokens (pattern : Pattern) (perform : Scan CString → Parsed)
    (text : CString) :
    Parses (parseBracketed pattern perform) text
      (parseTokens pattern perform (detachedTokens text)) :=
  parseBracketed_parses perform (reads_words (fun _ => mem_tokens_ne_nil) Scan.start)

end SuBinary.Magiskpolicy
