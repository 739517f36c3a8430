import SuBinary.Foundation.CString

/-! # Formatted input

The directives of `fscanf`, as the standard has them, on the text that a stream has. Numbers
are read but not evaluated. Directives that the text has nothing left for are kept, so that
a text can be read in pieces.
-/

namespace SuBinary.Scanf

open SuBinary

inductive Directive
  | space
  | literal (byte : Byte)
  /-- `%x` or `%d` -/
  | number (hexadecimal : Bool)
  /-- `%s` -/
  | word
deriving DecidableEq

inductive Ending
  | complete
  | mismatch
  | starved (left : List Directive)
deriving DecidableEq

/-- The number of assignments, the strings that were stored, and what is left of the text. -/
structure Scan where
  assigned : Nat
  words : List CString
  rest : List Byte
  ending : Ending
deriving DecidableEq

/-- `EOF` stands for a missing input before the first assignment. White space may be missing. -/
def Scan.returned (scanned : Scan) : Int :=
  match scanned.ending with
  | .starved left =>
      if scanned.assigned = 0 ∧ ∃ directive ∈ left, directive ≠ .space then -1
      else scanned.assigned
  | _ => scanned.assigned

/-! ## Execution -/

def isHexDigit (byte : Byte) : Bool :=
  isDigit byte || (97 ≤ byte && byte ≤ 102) || (65 ≤ byte && byte ≤ 70)

def isDigitOf (hexadecimal : Bool) : Byte → Bool := if hexadecimal then isHexDigit else isDigit

def skipSign : List Byte → List Byte
  | [] => []
  | byte :: rest => if byte = 43 ∨ byte = 45 then rest else byte :: rest

def skipBase : List Byte → List Byte
  | zero :: x :: rest => if zero = 48 ∧ (x = 120 ∨ x = 88) then rest else zero :: x :: rest
  | text => text

def skipStart (hexadecimal : Bool) (text : List Byte) : List Byte :=
  if hexadecimal then skipBase (skipSign text) else skipSign text

/-- Whether there is a number, and what is left. The start of one is used up without it. -/
def scanNumber (hexadecimal : Bool) (text : List Byte) : Bool × List Byte :=
  let digits := skipStart hexadecimal text
  (digits.head?.any (isDigitOf hexadecimal), digits.dropWhile (isDigitOf hexadecimal))

def isGraph (byte : Byte) : Bool := !isSpace byte

def Scan.assign (scanned : Scan) : Scan := { scanned with assigned := scanned.assigned + 1 }

def Scan.store (word : CString) (scanned : Scan) : Scan :=
  { scanned with assigned := scanned.assigned + 1, words := word :: scanned.words }

def starve (left : List Directive) : Scan :=
  { assigned := 0, words := [], rest := [], ending := .starved left }

def stop (ending : Ending) (rest : List Byte) : Scan :=
  { assigned := 0, words := [], rest, ending }

def scan : List Directive → List Byte → Scan
  | [], text => stop .complete text
  | .space :: left, text =>
      match text.dropWhile isSpace with
      | [] => starve (.space :: left)
      | byte :: rest => scan left (byte :: rest)
  | .literal byte :: left, text =>
      match text with
      | [] => starve (.literal byte :: left)
      | first :: rest => if first = byte then scan left rest else stop .mismatch (first :: rest)
  | .number hexadecimal :: left, text =>
      match text.dropWhile isSpace with
      | [] => starve (.number hexadecimal :: left)
      | byte :: rest =>
          if (scanNumber hexadecimal (byte :: rest)).1 then
            (scan left (scanNumber hexadecimal (byte :: rest)).2).assign
          else stop .mismatch (scanNumber hexadecimal (byte :: rest)).2
  | .word :: left, text =>
      match text.dropWhile isSpace with
      | [] => starve (.word :: left)
      | byte :: rest =>
          (scan left ((byte :: rest).dropWhile isGraph)).store ((byte :: rest).takeWhile isGraph)

/-! ## What is read -/

theorem isGraph_of_dropWhile {text rest : List Byte} {byte : Byte}
    (dropped : text.dropWhile isSpace = byte :: rest) : isGraph byte = true := by
  have first := List.head?_dropWhile_not isSpace text
  rw [dropped] at first
  simpa [isGraph] using first

theorem skipSign_suffix (text : List Byte) : skipSign text <:+ text := by
  unfold skipSign
  split
  · exact List.suffix_refl _
  · split
    · exact List.suffix_cons _ _
    · exact List.suffix_refl _

theorem skipBase_suffix (text : List Byte) : skipBase text <:+ text := by
  unfold skipBase
  split
  · split
    · exact (List.suffix_cons _ _).trans (List.suffix_cons _ _)
    · exact List.suffix_refl _
  · exact List.suffix_refl _

theorem skipStart_suffix (hexadecimal : Bool) (text : List Byte) :
    skipStart hexadecimal text <:+ text := by
  unfold skipStart
  split
  · exact (skipBase_suffix _).trans (skipSign_suffix _)
  · exact skipSign_suffix _

theorem scanNumber_suffix (hexadecimal : Bool) (text : List Byte) :
    (scanNumber hexadecimal text).2 <:+ text :=
  (List.dropWhile_suffix _).trans (skipStart_suffix hexadecimal text)

theorem scanNumber_shorter {hexadecimal : Bool} {text : List Byte}
    (isNumber : (scanNumber hexadecimal text).1 = true) :
    (scanNumber hexadecimal text).2.length < text.length := by
  have notLonger := (skipStart_suffix hexadecimal text).length_le
  rw [scanNumber] at isNumber ⊢
  dsimp only at isNumber ⊢
  cases digits : skipStart hexadecimal text with
  | nil =>
      rw [digits] at isNumber
      cases isNumber
  | cons digit rest =>
      rw [digits] at isNumber notLonger
      rw [List.dropWhile_cons_of_pos (by simpa using isNumber)]
      have := (List.dropWhile_suffix (l := rest) (isDigitOf hexadecimal)).length_le
      rw [List.length_cons] at notLonger
      omega

theorem scan_cons_nil (directive : Directive) (left : List Directive) :
    scan (directive :: left) [] = starve (directive :: left) := by
  cases directive <;> simp [scan]

theorem scan_literal (byte : Byte) (left : List Directive) (rest : List Byte) :
    scan (.literal byte :: left) (byte :: rest) = scan left rest := by
  simp [scan]

theorem scan_number_dropWhile (hexadecimal : Bool) (left : List Directive) (text : List Byte) :
    scan (.number hexadecimal :: left) (text.dropWhile isSpace) =
      scan (.number hexadecimal :: left) text := by
  simp only [scan, List.dropWhile_idempotent]

theorem scan_rest (left : List Directive) (text : List Byte) : (scan left text).rest <:+ text := by
  fun_induction scan left text with
  | case1 text => exact List.suffix_refl _
  | case2 left text blank => exact List.nil_suffix
  | case3 left text byte rest dropped induction =>
      exact induction.trans (dropped ▸ List.dropWhile_suffix _)
  | case4 left byte => exact List.nil_suffix
  | case5 left byte rest induction => exact induction.trans (List.suffix_cons _ _)
  | case6 left byte first rest other => exact List.suffix_refl _
  | case7 hexadecimal left text blank => exact List.nil_suffix
  | case8 hexadecimal left text byte rest dropped isNumber induction =>
      exact (induction.trans (scanNumber_suffix _ _)).trans (dropped ▸ List.dropWhile_suffix _)
  | case9 hexadecimal left text byte rest dropped none =>
      exact (scanNumber_suffix _ _).trans (dropped ▸ List.dropWhile_suffix _)
  | case10 left text blank => exact List.nil_suffix
  | case11 left text byte rest dropped induction =>
      exact (induction.trans (List.dropWhile_suffix _)).trans (dropped ▸ List.dropWhile_suffix _)

theorem scan_shorter {left : List Directive} {text : List Byte}
    (some : 0 < (scan left text).assigned) : (scan left text).rest.length < text.length := by
  fun_induction scan left text with
  | case1 text => exact absurd some (Nat.lt_irrefl 0)
  | case2 left text blank => exact absurd some (Nat.lt_irrefl 0)
  | case3 left text byte rest dropped induction =>
      have notLonger := (List.dropWhile_suffix (l := text) isSpace).length_le
      rw [dropped] at notLonger
      exact Nat.lt_of_lt_of_le (induction some) notLonger
  | case4 left byte => exact absurd some (Nat.lt_irrefl 0)
  | case5 left byte rest induction => exact Nat.lt_succ_of_lt (induction some)
  | case6 left byte first rest other => exact absurd some (Nat.lt_irrefl 0)
  | case7 hexadecimal left text blank => exact absurd some (Nat.lt_irrefl 0)
  | case8 hexadecimal left text byte rest dropped isNumber induction =>
      have notLonger := (List.dropWhile_suffix (l := text) isSpace).length_le
      rw [dropped] at notLonger
      have shorter := scanNumber_shorter isNumber
      have := (scan_rest left (scanNumber hexadecimal (byte :: rest)).2).length_le
      exact Nat.lt_of_le_of_lt this (Nat.lt_of_lt_of_le shorter notLonger)
  | case9 hexadecimal left text byte rest dropped none => exact absurd some (Nat.lt_irrefl 0)
  | case10 left text blank => exact absurd some (Nat.lt_irrefl 0)
  | case11 left text byte rest dropped induction =>
      have notLonger := (List.dropWhile_suffix (l := text) isSpace).length_le
      have graph := isGraph_of_dropWhile dropped
      rw [dropped] at notLonger
      have := (scan_rest left ((byte :: rest).dropWhile isGraph)).length_le
      have shorter : ((byte :: rest).dropWhile isGraph).length ≤ rest.length := by
        rw [List.dropWhile_cons_of_pos graph]
        exact (List.dropWhile_suffix _).length_le
      exact Nat.lt_of_le_of_lt this
        (Nat.lt_of_lt_of_le (Nat.lt_succ_of_le shorter) notLonger)

theorem scan_words_length (left : List Directive) (text : List Byte) :
    (scan left text).words.length ≤ left.count .word := by
  fun_induction scan left text with
  | case1 text => exact Nat.zero_le _
  | case2 left text blank => exact Nat.zero_le _
  | case3 left text byte rest dropped induction => simpa using induction
  | case4 left byte => exact Nat.zero_le _
  | case5 left byte rest induction => simpa using induction
  | case6 left byte first rest other => exact Nat.zero_le _
  | case7 hexadecimal left text blank => exact Nat.zero_le _
  | case8 hexadecimal left text byte rest dropped isNumber induction =>
      simpa [Scan.assign] using induction
  | case9 hexadecimal left text byte rest dropped none => exact Nat.zero_le _
  | case10 left text blank => exact Nat.zero_le _
  | case11 left text byte rest dropped induction => simpa [Scan.store] using induction

theorem scan_words_assigned (left : List Directive) (text : List Byte) :
    (scan left text).words.length ≤ (scan left text).assigned := by
  fun_induction scan left text with
  | case1 text => exact Nat.zero_le _
  | case2 left text blank => exact Nat.zero_le _
  | case3 left text byte rest dropped induction => exact induction
  | case4 left byte => exact Nat.zero_le _
  | case5 left byte rest induction => exact induction
  | case6 left byte first rest other => exact Nat.zero_le _
  | case7 hexadecimal left text blank => exact Nat.zero_le _
  | case8 hexadecimal left text byte rest dropped isNumber induction =>
      exact Nat.le_succ_of_le induction
  | case9 hexadecimal left text byte rest dropped none => exact Nat.zero_le _
  | case10 left text blank => exact Nat.zero_le _
  | case11 left text byte rest dropped induction => exact Nat.succ_le_succ induction

theorem scan_starved {left missing : List Directive} {text : List Byte}
    (starved : (scan left text).ending = .starved missing) : (scan left text).rest = [] := by
  fun_induction scan left text with
  | case1 text => cases starved
  | case2 left text blank => rfl
  | case3 left text byte rest dropped induction => exact induction starved
  | case4 left byte => rfl
  | case5 left byte rest induction => exact induction starved
  | case6 left byte first rest other => cases starved
  | case7 hexadecimal left text blank => rfl
  | case8 hexadecimal left text byte rest dropped isNumber induction => exact induction starved
  | case9 hexadecimal left text byte rest dropped none => cases starved
  | case10 left text blank => rfl
  | case11 left text byte rest dropped induction => exact induction starved

theorem scan_space_end (left : List Directive) (text : List Byte) :
    (scan (left ++ [.space]) text).assigned = (scan left text).assigned ∧
      (scan (left ++ [.space]) text).words = (scan left text).words ∧
      (scan (left ++ [.space]) text).rest.dropWhile isSpace =
        (scan left text).rest.dropWhile isSpace := by
  fun_induction scan left text with
  | case1 text =>
      rw [List.nil_append, scan]
      split
      · rename_i blank
        exact ⟨rfl, rfl, blank.symm⟩
      · rename_i byte rest dropped
        refine ⟨rfl, rfl, ?_⟩
        simp only [scan, stop, ← dropped, List.dropWhile_idempotent]
  | case2 left text blank => simp [scan, blank, starve]
  | case3 left text byte rest dropped induction => simpa [scan, dropped] using induction
  | case4 left byte => simp [scan, starve]
  | case5 left byte rest induction => simpa [scan] using induction
  | case6 left byte first rest other => simp [scan, other]
  | case7 hexadecimal left text blank => simp [scan, blank, starve]
  | case8 hexadecimal left text byte rest dropped isNumber induction =>
      simpa [scan, dropped, isNumber, Scan.assign] using induction
  | case9 hexadecimal left text byte rest dropped none => simp [scan, dropped, none]
  | case10 left text blank => simp [scan, blank, starve]
  | case11 left text byte rest dropped induction =>
      simpa [scan, dropped, Scan.store] using induction

theorem Scan.returned_pos (scanned : Scan) : 0 < scanned.returned ↔ 0 < scanned.assigned := by
  unfold Scan.returned
  split
  · split
    · rename_i missing
      simp [missing.1]
    · omega
  · omega

theorem scan_word_within {left : List Directive} {text : List Byte} {word : CString}
    (member : word ∈ (scan left text).words) : word <:+: text := by
  fun_induction scan left text with
  | case1 text => cases member
  | case2 left text blank => cases member
  | case3 left text byte rest dropped induction =>
      exact (induction member).trans (dropped ▸ (List.dropWhile_suffix _).isInfix)
  | case4 left byte => cases member
  | case5 left byte rest induction => exact (induction member).trans (List.suffix_cons _ _).isInfix
  | case6 left byte first rest other => cases member
  | case7 hexadecimal left text blank => cases member
  | case8 hexadecimal left text byte rest dropped isNumber induction =>
      exact ((induction member).trans (scanNumber_suffix _ _).isInfix).trans
        (dropped ▸ (List.dropWhile_suffix _).isInfix)
  | case9 hexadecimal left text byte rest dropped none => cases member
  | case10 left text blank => cases member
  | case11 left text byte rest dropped induction =>
      have isTail : byte :: rest <:+: text := dropped ▸ (List.dropWhile_suffix _).isInfix
      rcases List.mem_cons.mp member with rfl | member
      · exact (List.takeWhile_prefix _).isInfix.trans isTail
      · exact ((induction member).trans (List.dropWhile_suffix _).isInfix).trans isTail

theorem scan_word_graph {left : List Directive} {text : List Byte} {word : CString}
    (member : word ∈ (scan left text).words) : ∀ byte, byte ∈ word → isGraph byte = true := by
  fun_induction scan left text with
  | case1 text => cases member
  | case2 left text blank => cases member
  | case3 left text byte rest dropped induction => exact induction member
  | case4 left byte => cases member
  | case5 left byte rest induction => exact induction member
  | case6 left byte first rest other => cases member
  | case7 hexadecimal left text blank => cases member
  | case8 hexadecimal left text byte rest dropped isNumber induction => exact induction member
  | case9 hexadecimal left text byte rest dropped none => cases member
  | case10 left text blank => cases member
  | case11 left text byte rest dropped induction =>
      rcases List.mem_cons.mp member with rfl | member
      · exact fun byte inside => List.mem_takeWhile_imp inside
      · exact induction member

/-! ## Reading in pieces -/

def Scan.resume (scanned : Scan) (more : List Byte) : Scan :=
  match scanned.ending with
  | .starved left =>
      { scan left more with
        assigned := scanned.assigned + (scan left more).assigned
        words := scanned.words ++ (scan left more).words }
  | _ => { scanned with rest := scanned.rest ++ more }

@[simp] theorem resume_starve (left : List Directive) (more : List Byte) :
    (starve left).resume more = scan left more := by
  simp [starve, Scan.resume]

theorem resume_ended {scanned : Scan} (ended : ∀ left, scanned.ending ≠ .starved left)
    (more : List Byte) : scanned.resume more = { scanned with rest := scanned.rest ++ more } := by
  unfold Scan.resume
  split
  · rename_i left starved
    exact absurd starved (ended left)
  · rfl

theorem resume_assign (scanned : Scan) (more : List Byte) :
    scanned.assign.resume more = (scanned.resume more).assign := by
  cases scanned with
  | mk assigned words rest ending =>
      cases ending with
      | complete => rfl
      | mismatch => rfl
      | starved left => simp [Scan.assign, Scan.resume, Nat.add_right_comm]

theorem resume_store (word : CString) (scanned : Scan) (more : List Byte) :
    (scanned.store word).resume more = (scanned.resume more).store word := by
  cases scanned with
  | mk assigned words rest ending =>
      cases ending with
      | complete => rfl
      | mismatch => rfl
      | starved left => simp [Scan.store, Scan.resume, Nat.add_right_comm]

/-- White space ends the text, so that no number and no word goes on behind it. -/
def Closed (text : List Byte) : Prop := ∀ byte, text.getLast? = some byte → isSpace byte = true

theorem Closed.of_suffix {rest text : List Byte} (closed : Closed text) (suffix : rest <:+ text) :
    Closed rest := by
  intro byte last
  rcases suffix with ⟨front, rfl⟩
  apply closed
  rw [List.getLast?_append, last, Option.some_or]

theorem Closed.append {front text : List Byte} (closed : Closed text) (some : text ≠ []) :
    Closed (front ++ text) := by
  intro byte last
  rw [List.getLast?_append_of_ne_nil _ some] at last
  exact closed byte last

section Pieces

variable {text : List Byte} {byte : Byte} {rest : List Byte}

theorem Closed.dropWhile_ne_nil {pass : Byte → Bool} (closed : Closed (byte :: rest))
    (stops : ∀ space, isSpace space = true → pass space = false) :
    (byte :: rest).dropWhile pass ≠ [] := by
  intro none
  have last := List.getLast?_eq_some_getLast (List.cons_ne_nil byte rest)
  have passes := List.dropWhile_eq_nil_iff.mp none _ (List.getLast_mem (List.cons_ne_nil byte rest))
  rw [stops _ (closed _ last)] at passes
  cases passes

theorem Closed.dropWhile_append {pass : Byte → Bool} (closed : Closed (byte :: rest))
    (stops : ∀ space, isSpace space = true → pass space = false) (more : List Byte) :
    (byte :: rest ++ more).dropWhile pass = (byte :: rest).dropWhile pass ++ more := by
  rw [List.dropWhile_append, if_neg]
  simpa using closed.dropWhile_ne_nil stops

theorem Closed.takeWhile_append {pass : Byte → Bool} (closed : Closed (byte :: rest))
    (stops : ∀ space, isSpace space = true → pass space = false) (more : List Byte) :
    (byte :: rest ++ more).takeWhile pass = (byte :: rest).takeWhile pass := by
  have whole := List.takeWhile_append_dropWhile (p := pass) (l := byte :: rest ++ more)
  rw [closed.dropWhile_append stops, ← List.append_assoc] at whole
  have parts := List.takeWhile_append_dropWhile (p := pass) (l := byte :: rest)
  exact List.append_cancel_right ((List.append_cancel_right whole).trans parts.symm)

theorem isSpace_cases {space : Byte} (isIt : isSpace space = true) :
    space = 32 ∨ 9 ≤ space ∧ space ≤ 13 := by
  simpa [isSpace] using isIt

theorem isDigitOf_of_isSpace (hexadecimal : Bool) (space : Byte) (isIt : isSpace space = true) :
    isDigitOf hexadecimal space = false := by
  rcases isSpace_cases isIt with rfl | range
  · cases hexadecimal <;> rfl
  · rw [UInt8.le_iff_toNat_le, UInt8.le_iff_toNat_le] at range
    cases hexadecimal <;>
      simp only [isDigitOf, isHexDigit, isDigit, Bool.or_eq_false_iff, Bool.and_eq_false_iff,
        decide_eq_false_iff_not, UInt8.le_iff_toNat_le, Bool.false_eq_true, if_true, if_false] <;>
      simp only [UInt8.reduceToNat] at * <;>
      omega

theorem isGraph_of_isSpace (space : Byte) (isIt : isSpace space = true) :
    isGraph space = false := by
  rw [isGraph, isIt, Bool.not_true]

theorem Closed.head_ne {sign : Byte} (closed : Closed [sign]) (notSpace : isSpace sign = false) :
    False := by
  have isIt := closed sign rfl
  rw [notSpace] at isIt
  cases isIt

theorem skipSign_append (byte : Byte) (rest more : List Byte) :
    skipSign (byte :: rest ++ more) = skipSign (byte :: rest) ++ more := by
  simp only [skipSign, List.cons_append]
  split <;> rfl

theorem Closed.skipSign_ne_nil (closed : Closed (byte :: rest)) : skipSign (byte :: rest) ≠ [] := by
  simp only [skipSign]
  split
  · rename_i isSign
    rintro rfl
    rcases isSign with rfl | rfl <;> exact closed.head_ne rfl
  · exact List.cons_ne_nil _ _

theorem Closed.skipBase_ne_nil (closed : Closed (byte :: rest)) : skipBase (byte :: rest) ≠ [] := by
  unfold skipBase
  split
  · rename_i zero x rest equation
    cases equation
    split
    · rename_i isBase
      rintro rfl
      have closedX : Closed [x] := closed.of_suffix (List.suffix_cons _ _)
      rcases isBase.2 with rfl | rfl <;> exact closedX.head_ne rfl
    · exact List.cons_ne_nil _ _
  · exact List.cons_ne_nil _ _

theorem Closed.skipBase_append (closed : Closed (byte :: rest)) (more : List Byte) :
    skipBase (byte :: rest ++ more) = skipBase (byte :: rest) ++ more := by
  cases rest with
  | nil =>
      have notZero : byte ≠ 48 := by
        rintro rfl
        exact closed.head_ne rfl
      cases more with
      | nil => rfl
      | cons x more => simp [skipBase, notZero]
  | cons x rest =>
      simp only [skipBase, List.cons_append]
      split <;> rfl

theorem Closed.skipStart_append (closed : Closed (byte :: rest)) (hexadecimal : Bool)
    (more : List Byte) :
    skipStart hexadecimal (byte :: rest ++ more) = skipStart hexadecimal (byte :: rest) ++ more ∧
      skipStart hexadecimal (byte :: rest) ≠ [] := by
  rcases List.exists_cons_of_ne_nil closed.skipSign_ne_nil with ⟨first, behind, isBehind⟩
  have closedBehind : Closed (first :: behind) :=
    isBehind ▸ closed.of_suffix (skipSign_suffix (byte :: rest))
  cases hexadecimal with
  | false => exact ⟨skipSign_append byte rest more, closed.skipSign_ne_nil⟩
  | true =>
      simp only [skipStart, if_true, skipSign_append, isBehind]
      exact ⟨closedBehind.skipBase_append more, closedBehind.skipBase_ne_nil⟩

theorem Closed.scanNumber_append (closed : Closed (byte :: rest)) (hexadecimal : Bool)
    (more : List Byte) :
    scanNumber hexadecimal (byte :: rest ++ more) =
      ((scanNumber hexadecimal (byte :: rest)).1,
        (scanNumber hexadecimal (byte :: rest)).2 ++ more) := by
  rcases closed.skipStart_append hexadecimal more with ⟨appended, some⟩
  rcases List.exists_cons_of_ne_nil some with ⟨digit, behind, isBehind⟩
  have closedBehind : Closed (digit :: behind) :=
    isBehind ▸ closed.of_suffix (skipStart_suffix hexadecimal (byte :: rest))
  rw [scanNumber, appended, scanNumber, isBehind]
  dsimp only
  rw [closedBehind.dropWhile_append (isDigitOf_of_isSpace hexadecimal)]
  rfl

end Pieces

theorem dropWhile_isSpace_append {text : List Byte} (blank : text.dropWhile isSpace = [])
    (more : List Byte) : (text ++ more).dropWhile isSpace = more.dropWhile isSpace :=
  List.dropWhile_append_of_pos (List.dropWhile_eq_nil_iff.mp blank)

theorem dropWhile_isSpace_cons {text rest : List Byte} {byte : Byte}
    (dropped : text.dropWhile isSpace = byte :: rest) (more : List Byte) :
    (text ++ more).dropWhile isSpace = byte :: rest ++ more := by
  rw [List.dropWhile_append, dropped]
  rfl

theorem scan_append (left : List Directive) {text : List Byte} (closed : Closed text)
    (more : List Byte) : scan left (text ++ more) = (scan left text).resume more := by
  fun_induction scan left text with
  | case1 text => simp [scan, stop, Scan.resume]
  | case2 left text blank =>
      rw [resume_starve]
      conv_lhs => rw [scan, dropWhile_isSpace_append blank]
      rfl
  | case3 left text byte rest dropped induction =>
      have closedRest : Closed (byte :: rest) :=
        closed.of_suffix (dropped ▸ List.dropWhile_suffix _)
      rw [← induction closedRest]
      conv_lhs => rw [scan, dropWhile_isSpace_cons dropped]
      rfl
  | case4 left byte => rw [resume_starve, List.nil_append]
  | case5 left byte rest induction =>
      rw [← induction (closed.of_suffix (List.suffix_cons _ _))]
      simp [scan]
  | case6 left byte first rest other => simp [scan, other, stop, Scan.resume]
  | case7 hexadecimal left text blank =>
      rw [resume_starve]
      conv_lhs => rw [scan, dropWhile_isSpace_append blank]
      rfl
  | case8 hexadecimal left text byte rest dropped isNumber induction =>
      have closedRest : Closed (byte :: rest) :=
        closed.of_suffix (dropped ▸ List.dropWhile_suffix _)
      have read := closedRest.scanNumber_append hexadecimal more
      rw [resume_assign, ← induction (closedRest.of_suffix (scanNumber_suffix _ _))]
      rw [scan, dropWhile_isSpace_cons dropped]
      rw [List.cons_append] at read ⊢
      dsimp only
      rw [read, if_pos isNumber]
  | case9 hexadecimal left text byte rest dropped none =>
      have closedRest : Closed (byte :: rest) :=
        closed.of_suffix (dropped ▸ List.dropWhile_suffix _)
      have read := closedRest.scanNumber_append hexadecimal more
      rw [scan, dropWhile_isSpace_cons dropped]
      rw [List.cons_append] at read ⊢
      dsimp only
      rw [read, if_neg none]
      rfl
  | case10 left text blank =>
      rw [resume_starve]
      conv_lhs => rw [scan, dropWhile_isSpace_append blank]
      rfl
  | case11 left text byte rest dropped induction =>
      have closedRest : Closed (byte :: rest) :=
        closed.of_suffix (dropped ▸ List.dropWhile_suffix _)
      rw [resume_store, ← induction (closedRest.of_suffix (List.dropWhile_suffix _))]
      rw [scan, dropWhile_isSpace_cons dropped]
      have word := closedRest.takeWhile_append isGraph_of_isSpace more
      have behind := closedRest.dropWhile_append isGraph_of_isSpace more
      rw [List.cons_append] at word behind ⊢
      dsimp only
      rw [word, behind]

/-! ## Digits -/

structure Digits (hexadecimal : Bool) where
  text : List Byte
  someDigit : text ≠ []
  allDigits : ∀ byte, byte ∈ text → isDigitOf hexadecimal byte = true
deriving DecidableEq

def Digits.ofText {hexadecimal : Bool} (text : List Byte) (someDigit : text ≠ [])
    (allDigits : text.all (isDigitOf hexadecimal) = true) : Digits hexadecimal where
  text := text
  someDigit := someDigit
  allDigits := List.all_eq_true.mp allDigits

def Digits.toHex (digits : Digits false) : Digits true where
  text := digits.text
  someDigit := digits.someDigit
  allDigits := fun byte member => by
    have digit : isDigit byte = true := digits.allDigits byte member
    simp [isDigitOf, isHexDigit, digit]

def Stops (hexadecimal : Bool) (byte : Byte) : Prop :=
  isDigitOf hexadecimal byte = false ∧ byte ≠ 120 ∧ byte ≠ 88

theorem stops_of_isSpace (hexadecimal : Bool) {space : Byte} (isIt : isSpace space = true) :
    Stops hexadecimal space := by
  refine ⟨isDigitOf_of_isSpace hexadecimal space isIt, ?_, ?_⟩
  · rintro rfl
    cases isIt
  · rintro rfl
    cases isIt

section Numbers

variable {hexadecimal : Bool} (digits : Digits hexadecimal) {byte : Byte}

theorem notSign_of_isDigitOf {digit : Byte} (isIt : isDigitOf hexadecimal digit = true) :
    ¬(digit = 43 ∨ digit = 45) := by
  rintro (rfl | rfl) <;> cases hexadecimal <;> cases isIt

theorem notX_of_isDigitOf {digit : Byte} (isIt : isDigitOf hexadecimal digit = true) :
    ¬(digit = 120 ∨ digit = 88) := by
  rintro (rfl | rfl) <;> cases hexadecimal <;> cases isIt

theorem skipStart_digits (stops : Stops hexadecimal byte) (rest : List Byte) :
    skipStart hexadecimal (digits.text ++ byte :: rest) = digits.text ++ byte :: rest := by
  rcases digits with ⟨text, someDigit, allDigits⟩
  cases text with
  | nil => exact absurd rfl someDigit
  | cons digit more =>
      have notSign := notSign_of_isDigitOf (allDigits digit List.mem_cons_self)
      have unsigned : skipSign (digit :: (more ++ byte :: rest)) =
          digit :: (more ++ byte :: rest) := if_neg notSign
      have noBase : skipBase (digit :: (more ++ byte :: rest)) =
          digit :: (more ++ byte :: rest) := by
        cases more with
        | nil => exact if_neg fun base => base.2.elim stops.2.1 stops.2.2
        | cons x more =>
            have notX := notX_of_isDigitOf (allDigits x (by simp))
            exact if_neg fun base => notX base.2
      dsimp only [List.cons_append]
      unfold skipStart
      split
      · rw [unsigned, noBase]
      · exact unsigned

theorem scanNumber_digits (stops : Stops hexadecimal byte) (rest : List Byte) :
    scanNumber hexadecimal (digits.text ++ byte :: rest) = (true, byte :: rest) := by
  rw [scanNumber, skipStart_digits digits stops]
  rw [List.dropWhile_append_of_pos digits.allDigits,
    List.dropWhile_cons_of_neg (by simp [stops.1])]
  rcases digits with ⟨text, someDigit, allDigits⟩
  cases text with
  | nil => exact absurd rfl someDigit
  | cons digit more => simp [allDigits digit List.mem_cons_self]

variable {spaces : List Byte}

theorem dropWhile_isSpace_digits (allSpace : ∀ space, space ∈ spaces → isSpace space = true)
    (rest : List Byte) :
    (spaces ++ (digits.text ++ rest)).dropWhile isSpace = digits.text ++ rest := by
  rw [List.dropWhile_append_of_pos allSpace]
  rcases digits with ⟨text, someDigit, allDigits⟩
  cases text with
  | nil => exact absurd rfl someDigit
  | cons digit more =>
      apply List.dropWhile_cons_of_neg
      intro isIt
      have digits := allDigits digit List.mem_cons_self
      rw [isDigitOf_of_isSpace hexadecimal digit isIt] at digits
      cases digits

theorem scan_number (allSpace : ∀ space, space ∈ spaces → isSpace space = true)
    (stops : Stops hexadecimal byte) (left : List Directive) (rest : List Byte) :
    scan (.number hexadecimal :: left) (spaces ++ (digits.text ++ byte :: rest)) =
      (scan left (byte :: rest)).assign := by
  have dropped := dropWhile_isSpace_digits digits allSpace (byte :: rest)
  have read := scanNumber_digits digits stops rest
  rcases List.exists_cons_of_ne_nil (List.append_ne_nil_of_left_ne_nil digits.someDigit _) with
    ⟨first, behind, isBehind⟩
  rw [isBehind] at dropped read
  rw [scan, isBehind, dropped]
  dsimp only
  rw [read, if_pos rfl]

theorem scan_space_number (allSpace : ∀ space, space ∈ spaces → isSpace space = true)
    (stops : Stops hexadecimal byte) (left : List Directive) (rest : List Byte) :
    scan (.space :: .number hexadecimal :: left) (spaces ++ (digits.text ++ byte :: rest)) =
      (scan left (byte :: rest)).assign := by
  have dropped := dropWhile_isSpace_digits digits allSpace (byte :: rest)
  have none : ∀ space, space ∈ ([] : List Byte) → isSpace space = true := by
    intro space member
    cases member
  rcases List.exists_cons_of_ne_nil (List.append_ne_nil_of_left_ne_nil digits.someDigit _) with
    ⟨first, behind, isBehind⟩
  rw [scan, dropped, isBehind]
  dsimp only
  rw [← isBehind, ← List.nil_append (digits.text ++ byte :: rest)]
  exact scan_number digits none stops left rest

end Numbers

/-! ## Words -/

section Words

variable {pass : Byte → Bool} {stopper : Byte}

theorem takeWhile_append_stop (stops : pass stopper = false) (text rest : List Byte) :
    (text ++ stopper :: rest).takeWhile pass = text.takeWhile pass := by
  induction text with
  | nil => rw [List.nil_append, List.takeWhile_cons_of_neg (by simp [stops]), List.takeWhile_nil]
  | cons byte text induction => simp only [List.cons_append, List.takeWhile_cons, induction]

theorem dropWhile_append_stop (stops : pass stopper = false) (text rest : List Byte) :
    (text ++ stopper :: rest).dropWhile pass = text.dropWhile pass ++ stopper :: rest := by
  induction text with
  | nil => rw [List.nil_append, List.dropWhile_cons_of_neg (by simp [stops]), List.dropWhile_nil,
      List.nil_append]
  | cons byte text induction =>
      simp only [List.cons_append, List.dropWhile_cons, induction]
      split <;> rfl

end Words

theorem scan_space_word {text rest : List Byte} {byte : Byte}
    (dropped : text.dropWhile isSpace = byte :: rest) (left : List Directive) :
    scan (.space :: .word :: left) text =
      (scan left ((byte :: rest).dropWhile isGraph)).store ((byte :: rest).takeWhile isGraph) := by
  have again : (byte :: rest).dropWhile isSpace = byte :: rest := by
    rw [← dropped, List.dropWhile_idempotent]
  rw [scan, dropped]
  dsimp only
  rw [scan, again]

theorem scan_space_word_blank {text : List Byte} (blank : text.dropWhile isSpace = [])
    (left : List Directive) :
    scan (.space :: .word :: left) text = starve (.space :: .word :: left) := by
  rw [scan, blank]

end SuBinary.Scanf
