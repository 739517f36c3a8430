import SuBinary.Su.DaemonExists

/-! # The listing of the sockets

When `daemon_exists` answers whether some socket has a path with the daemon's name in it. The
line of an unnamed socket takes the number of the next line for its path.
-/

namespace SuBinary.Su.DaemonExists

open SuBinary Scanf

/-! ## The listing -/

structure Field (hexadecimal : Bool) where
  padding : Nat
  digits : Digits hexadecimal
deriving DecidableEq

def Field.text {hexadecimal : Bool} (field : Field hexadecimal) : List Byte :=
  32 :: (List.replicate field.padding 32 ++ field.digits.text)

structure SocketPath where
  text : CString
  noNul : 0 ∉ text
  noEnd : newline ∉ text
deriving DecidableEq

/-- `Num: RefCount Protocol Flags Type St Inode`, and the path of a named socket. -/
structure SocketLine where
  num : Digits true
  refCount : Field true
  protocol : Field true
  flags : Field true
  type : Field true
  st : Field true
  inode : Field false
  path : Option SocketPath
deriving DecidableEq

namespace SocketLine

variable (line : SocketLine)

def pathText : CString := (line.path.map SocketPath.text).getD []

def tail : List Byte :=
  match line.path with
  | none => [newline]
  | some path => 32 :: (path.text ++ [newline])

def text : List Byte :=
  line.num.text ++ colon :: (line.refCount.text ++ (line.protocol.text ++ (line.flags.text ++
    (line.type.text ++ (line.st.text ++ (line.inode.text ++ line.tail))))))

def firstWord : CString := (line.pathText.dropWhile isSpace).takeWhile isGraph

def leftover : CString := (line.pathText.dropWhile isSpace).dropWhile isGraph

def secondWord : CString := (line.leftover.dropWhile isSpace).takeWhile isGraph

def IsDaemon : Prop := daemonSocketName <:+: line.pathText

instance : Decidable line.IsDaemon := inferInstanceAs (Decidable (_ <:+: _))

end SocketLine

def header : CString := ascii "Num       RefCount Protocol Flags    Type St Inode Path"

def listing (lines : List SocketLine) : List Byte :=
  header ++ newline :: lines.flatMap SocketLine.text

theorem daemonExists_listing (lines : List SocketLine) :
    daemonExists (some (listing lines)) =
      (read start (lines.flatMap SocketLine.text)).answer := by
  have noEnd : newline ∉ header := by decide
  have fits : header.length + 1 < pathMax := by decide
  rw [daemonExists, listing, fgets_line noEnd _ fits]
  exact detectLoop_run _ [] (by decide)

/-! ## Reading a line -/

def Spaced (text : List Byte) : Prop := ∃ space rest, text = space :: rest ∧ isSpace space = true

theorem Field.spaced {hexadecimal : Bool} (field : Field hexadecimal) (rest : List Byte) :
    Spaced (field.text ++ rest) := ⟨32, _, rfl, rfl⟩

theorem SocketLine.tail_spaced (line : SocketLine) : Spaced line.tail := by
  unfold SocketLine.tail
  split
  · exact ⟨newline, [], rfl, rfl⟩
  · exact ⟨32, _, rfl, rfl⟩

section Fields

variable {hexadecimal : Bool} {rest : List Byte}

theorem Field.text_append (field : Field hexadecimal) (rest : List Byte) :
    field.text ++ rest =
      (32 :: List.replicate field.padding 32) ++ (field.digits.text ++ rest) := by
  simp [Field.text]

theorem padding_isSpace (padding : Nat) :
    ∀ space, space ∈ (32 :: List.replicate padding 32 : List Byte) → isSpace space = true := by
  intro space member
  have isIt : space = 32 := by
    rcases List.mem_cons.mp member with isIt | member
    · exact isIt
    · exact List.eq_of_mem_replicate member
  rw [isIt]
  rfl

theorem scan_space_field (field : Field hexadecimal) (spaced : Spaced rest)
    (left : List Directive) :
    scan (.space :: .number hexadecimal :: left) (field.text ++ rest) =
      (scan left rest).assign := by
  rcases spaced with ⟨space, behind, rfl, isIt⟩
  rw [field.text_append]
  exact scan_space_number field.digits (padding_isSpace _) (stops_of_isSpace _ isIt) left behind

theorem scan_field (field : Field hexadecimal) (spaced : Spaced rest) (left : List Directive) :
    scan (.number hexadecimal :: left) (field.text ++ rest) = (scan left rest).assign := by
  rcases spaced with ⟨space, behind, rfl, isIt⟩
  rw [field.text_append]
  exact scan_number field.digits (padding_isSpace _) (stops_of_isSpace _ isIt) left behind

end Fields

/-- Behind the inode, where a path is expected. -/
def behind : Pending := { left := [.space, .word], assigned := 7 }

theorem scan_line (line : SocketLine) :
    scan record line.text =
      (scan behind.left line.tail).assign.assign.assign.assign.assign.assign.assign := by
  have stops : Stops true colon := ⟨by decide, by decide, by decide⟩
  have unpadded : ∀ space, space ∈ ([] : List Byte) → isSpace space = true := nofun
  have num : ∀ rest, scan record (line.num.text ++ colon :: rest) =
      (scan record.tail (colon :: rest)).assign := scan_number line.num unpadded stops record.tail
  rw [SocketLine.text, num]
  rw [show record.tail = .literal colon :: record.tail.tail from rfl, scan_literal]
  dsimp only [record, format, List.dropLast, List.tail]
  rw [scan_space_field line.refCount (line.protocol.spaced _),
    scan_space_field line.protocol (line.flags.spaced _),
    scan_space_field line.flags (line.type.spaced _),
    scan_space_field line.type (line.st.spaced _),
    scan_space_field line.st (line.inode.spaced _),
    scan_space_field line.inode line.tail_spaced]
  rfl

theorem read_start_line (line : SocketLine) : read start line.text = read behind line.tail := by
  apply readLoop.run_congr
  rw [body_start, scan_line]
  simp only [endCall_assign]
  rfl

theorem read_start_field (field : Field true) {rest : List Byte} (spaced : Spaced rest) :
    read start (field.text ++ rest) = read start rest := by
  have scanned := scan_field field spaced record.tail
  rcases spaced with ⟨space, more, rfl, isIt⟩
  have notColon : space ≠ colon := by
    rintro rfl
    cases isIt
  apply readLoop.run_of_again
  rw [body_start, show record = .number true :: record.tail from rfl, scanned]
  rw [show record.tail = .literal colon :: record.tail.tail from rfl, scan, if_neg notColon]
  rfl

theorem hasName_iff {word : CString} (noNul : 0 ∉ word) :
    hasName word = true ↔ daemonSocketName <:+: word := by
  have whole : word.takeWhile (fun byte => byte ≠ 0) = word := by
    rw [List.takeWhile_eq_self_iff]
    intro byte member
    simpa using fun isNul : byte = 0 => noNul (isNul ▸ member)
  rw [hasName, whole, decide_eq_true_iff]

theorem run_word {before : Pending} {text word rest : List Byte}
    (scanned : scan before.left text = (stop .complete rest).store word) :
    read before text = (verdict word).getD (read start rest) := by
  have body : readLoop.body { pending := before, text } =
      endCall before.assigned ((stop .complete rest).store word) :=
    congrArg (endCall before.assigned) scanned
  have single : ((stop .complete rest).store word).words.findSome? verdict = verdict word :=
    List.findSome?_singleton
  cases decided : verdict word with
  | some outcome =>
      exact readLoop.run_of_finish (body.trans (endCall_decided (single.trans decided)))
  | none =>
      have ended := @endCall_ended before.assigned _ (single.trans decided) nofun
      exact readLoop.run_of_again (body.trans (ended.trans (if_neg (Nat.succ_ne_zero _))))

theorem SocketLine.dropWhile_tail (line : SocketLine) :
    line.tail.dropWhile isSpace = (line.pathText ++ [newline]).dropWhile isSpace := by
  unfold SocketLine.tail SocketLine.pathText
  split
  · rename_i unnamed
    rw [unnamed]
    rfl
  · rename_i path named
    rw [named]
    rfl

/-- The first word of the path is stored, and what is behind it is read as the next line. -/
theorem read_behind_tail (line : SocketLine) :
    read behind line.tail =
      if line.firstWord = [] then .waiting behind
      else (verdict line.firstWord).getD (read start (line.leftover ++ [newline])) := by
  cases dropped : line.pathText.dropWhile isSpace with
  | nil =>
      have blank : line.tail.dropWhile isSpace = [] := by
        rw [line.dropWhile_tail, dropWhile_isSpace_append dropped]
        rfl
      have noWord : line.firstWord = [] := by
        rw [SocketLine.firstWord, dropped]
        rfl
      rw [if_pos noWord]
      apply readLoop.run_of_finish
      exact congrArg (endCall behind.assigned) (scan_space_word_blank blank [])
  | cons byte rest =>
      have isTail : line.tail.dropWhile isSpace = byte :: (rest ++ [newline]) := by
        rw [line.dropWhile_tail, dropWhile_isSpace_cons dropped]
        rfl
      have graph := isGraph_of_dropWhile dropped
      have someWord : line.firstWord ≠ [] := by
        rw [SocketLine.firstWord, dropped, List.takeWhile_cons_of_pos graph]
        exact List.cons_ne_nil _ _
      have stops : isGraph newline = false := by decide
      have scanned : scan behind.left line.tail =
          (stop .complete (line.leftover ++ [newline])).store line.firstWord := by
        rw [SocketLine.leftover, SocketLine.firstWord, dropped]
        have word := takeWhile_append_stop stops (byte :: rest) []
        have left := dropWhile_append_stop stops (byte :: rest) []
        rw [List.cons_append] at word left
        rw [← word, ← left]
        exact scan_space_word isTail []
      rw [if_neg someWord, run_word scanned]

section Behind

variable (line : SocketLine)

def SocketLine.fields : List Byte :=
  line.refCount.text ++ (line.protocol.text ++ (line.flags.text ++ (line.type.text ++
    (line.st.text ++ (line.inode.text ++ line.tail)))))

theorem SocketLine.text_eq : line.text = line.num.text ++ [colon] ++ line.fields := by
  rw [List.append_assoc]
  rfl

theorem isGraph_of_isDigitOf {hexadecimal : Bool} {digit : Byte}
    (isIt : isDigitOf hexadecimal digit = true) : isGraph digit = true := by
  rw [isGraph, Bool.not_eq_true', ← Bool.not_eq_true]
  intro space
  rw [isDigitOf_of_isSpace hexadecimal digit space] at isIt
  cases isIt

theorem isGraph_num : ∀ byte, byte ∈ line.num.text ++ [colon] → isGraph byte = true := by
  intro byte member
  rcases List.mem_append.mp member with digit | isColon
  · exact isGraph_of_isDigitOf (line.num.allDigits byte digit)
  · rw [List.mem_singleton.mp isColon]
    decide

/-- Each field is the number of a call that finds no colon behind it. -/
theorem read_start_fields : read start line.fields = read start line.tail := by
  rw [SocketLine.fields, read_start_field line.refCount (line.protocol.spaced _),
    read_start_field line.protocol (line.flags.spaced _),
    read_start_field line.flags (line.type.spaced _),
    read_start_field line.type (line.st.spaced _),
    read_start_field line.st (line.inode.spaced _)]
  exact read_start_field { line.inode with digits := line.inode.digits.toHex } line.tail_spaced

theorem mem_of_hasName {word : CString} (named : hasName word = true) : 109 ∈ word := by
  have isInfix := of_decide_eq_true named
  have first : (109 : Byte) ∈ daemonSocketName := by decide
  exact (List.takeWhile_prefix _).subset (isInfix.subset first)

theorem verdict_num :
    verdict (line.num.text ++ [colon]) =
      if tooLong (line.num.text ++ [colon]) then some .overflow else none := by
  have unnamed : ¬hasName (line.num.text ++ [colon]) = true := by
    intro named
    rcases List.mem_append.mp (mem_of_hasName named) with digit | isColon
    · exact absurd (line.num.allDigits 109 digit) (by decide)
    · exact absurd (List.mem_singleton.mp isColon) (by decide)
  rw [verdict, if_neg unnamed]

/-- Where a path is expected the number of the next line is taken for it. -/
theorem read_behind_line :
    read behind line.text =
      if tooLong (line.num.text ++ [colon]) then .overflow else read start line.tail := by
  have scanned : scan behind.left line.text =
      (stop .complete line.fields).store (line.num.text ++ [colon]) := by
    have unpadded : ∀ space, space ∈ ([] : List Byte) → isSpace space = true := nofun
    have isText : line.text.dropWhile isSpace = line.text :=
      dropWhile_isSpace_digits line.num unpadded (colon :: line.fields)
    have someText : line.text ≠ [] := List.append_ne_nil_of_left_ne_nil line.num.someDigit _
    rcases List.exists_cons_of_ne_nil someText with ⟨byte, rest, isCons⟩
    rw [isCons] at isText
    have stops : isGraph 32 = false := by decide
    rcases line.refCount.spaced _ with ⟨space, more, isFields, isIt⟩
    have isFields : line.fields = space :: more := isFields
    have notGraph : isGraph space = false := isGraph_of_isSpace space isIt
    have word : line.text.takeWhile isGraph = line.num.text ++ [colon] := by
      rw [line.text_eq, isFields, takeWhile_append_stop notGraph]
      exact List.takeWhile_eq_self_iff.mpr (isGraph_num line)
    have left : line.text.dropWhile isGraph = line.fields := by
      rw [line.text_eq, isFields, dropWhile_append_stop notGraph,
        List.dropWhile_eq_nil_iff.mpr (isGraph_num line), List.nil_append]
    rw [← word, ← left, isCons]
    exact scan_space_word isText []
  rw [run_word scanned, verdict_num, read_start_fields]
  split <;> rfl

end Behind

/-! ## Reading the lines -/

/-- A line as it is read, where `pending` is what the line before left to be executed. -/
def readLine (pending : Pending) (line : SocketLine) : Outcome :=
  if pending = start then
    if line.firstWord = [] then .waiting behind
    else (verdict line.firstWord).getD (read start (line.leftover ++ [newline]))
  else if pending = behind then
    if tooLong (line.num.text ++ [colon]) then .overflow else read start line.tail
  else read pending line.text

def readLines (pending : Pending) : List SocketLine → Outcome
  | [] => .waiting pending
  | line :: rest =>
      match readLine pending line with
      | .waiting next => readLines next rest
      | outcome => outcome

section Lines

variable (pending : Pending) (line : SocketLine)

theorem read_line : read pending line.text = readLine pending line := by
  unfold readLine
  split
  · rename_i isStart
    rw [isStart, read_start_line, read_behind_tail]
  · split
    · rename_i isBehind
      rw [isBehind, read_behind_line]
    · rfl

theorem SocketLine.tail_closed : Closed line.tail ∧ line.tail ≠ [] := by
  have closed : Closed [newline] := by
    intro byte last
    cases last
    rfl
  unfold SocketLine.tail
  split
  · exact ⟨closed, List.cons_ne_nil _ _⟩
  · rename_i path named
    exact ⟨@Closed.append (32 :: path.text) _ closed (List.cons_ne_nil _ _), List.cons_ne_nil _ _⟩

theorem SocketLine.closed : Closed line.text := by
  rcases line.tail_closed with ⟨closed, some⟩
  rw [line.text_eq, SocketLine.fields]
  simp only [← List.append_assoc]
  exact closed.append some

theorem read_nil : (read pending []).answer = some false := by
  rcases pending with ⟨left, assigned⟩
  cases left with
  | cons directive left =>
      have turned : readLoop.body { pending := ⟨directive :: left, assigned⟩, text := [] } =
          endCall assigned (starve (directive :: left)) :=
        congrArg (endCall assigned) (scan_cons_nil directive left)
      rw [read, readLoop.run_of_finish (turned.trans (endCall_starved rfl rfl))]
      rfl
  | nil =>
      have ended := @endCall_ended assigned (stop .complete []) rfl (by simp [stop])
      split at ended
      · rw [read, @Loop.run_of_finish _ _ readLoop ⟨⟨[], assigned⟩, []⟩ _ ended]
        rfl
      · rw [read, @Loop.run_of_again _ _ readLoop ⟨⟨[], assigned⟩, []⟩ _ ended]
        rfl

theorem read_lines (lines : List SocketLine) :
    (read pending (lines.flatMap SocketLine.text)).answer = (readLines pending lines).answer := by
  induction lines generalizing pending with
  | nil => exact read_nil pending
  | cons line rest induction =>
      rw [List.flatMap_cons, read_append pending line.closed, read_line, readLines]
      cases readLine pending line with
      | waiting next => exact induction next
      | found => rfl
      | overflow => rfl
      | lost => rfl

end Lines

/-! ## The daemon's line -/

theorem endCall_verdict {before : Nat} {scanned : Scan} {outcome : Outcome}
    (turned : endCall before scanned = .finish outcome)
    (decides : outcome = .found ∨ outcome = .overflow) :
    ∃ word ∈ scanned.words, verdict word = some outcome := by
  unfold endCall at turned
  split at turned
  · rename_i decided isVerdict
    cases turned
    exact List.exists_of_findSome?_eq_some isVerdict
  · split at turned
    · cases turned
      rcases decides with isFound | isOverflow <;> contradiction
    · split at turned
      · cases turned
        rcases decides with isFound | isOverflow <;> contradiction
      · cases turned

theorem read_verdict {pending : Pending} {text : List Byte} {outcome : Outcome}
    (decided : read pending text = outcome) (decides : outcome = .found ∨ outcome = .overflow) :
    ∃ word, word <:+: text ∧ (∀ byte, byte ∈ word → isGraph byte = true) ∧
      verdict word = some outcome := by
  refine @Loop.run_invariant _ _ readLoop (fun reading => reading.text <:+ text)
    (fun result => result = outcome → ∃ word, word <:+: text ∧
      (∀ byte, byte ∈ word → isGraph byte = true) ∧ verdict word = some outcome) ?again ?finish
    { pending, text } (List.suffix_refl _) decided
  case again =>
    intro reading next suffix turned
    rw [(endCall_again turned).1]
    exact (scan_rest _ _).trans suffix
  case finish =>
    rintro reading result suffix turned rfl
    rcases endCall_verdict turned decides with ⟨word, member, isVerdict⟩
    exact ⟨word, (scan_word_within member).trans suffix.isInfix, scan_word_graph member, isVerdict⟩

theorem hasName_of_verdict {word : CString} (isVerdict : verdict word = some .found) :
    hasName word = true := by
  unfold verdict at isVerdict
  split at isVerdict
  · cases isVerdict
  · split at isVerdict
    · assumption
    · cases isVerdict

theorem tooLong_of_verdict {word : CString} (isVerdict : verdict word = some .overflow) :
    tooLong word = true := by
  unfold verdict at isVerdict
  split at isVerdict
  · assumption
  · split at isVerdict <;> cases isVerdict

theorem infix_of_infix_append {front back : List Byte}
    (isInfix : daemonSocketName <:+: front ++ back) (without : 109 ∉ front) :
    daemonSocketName <:+: back := by
  rcases List.infix_append_iff_ne_nil.mp isInfix with
    inFront | inBack | ⟨first, second, someFirst, -, isName, suffix, -⟩
  · exact absurd (inFront.subset (by decide)) without
  · exact inBack
  · cases first with
    | nil => exact absurd rfl someFirst
    | cons byte first =>
        have isByte : byte = 109 := (List.cons.inj isName).1.symm
        exact absurd (suffix.subset (isByte ▸ List.mem_cons_self)) without

theorem infix_of_infix_newline {front : List Byte}
    (isInfix : daemonSocketName <:+: front ++ [newline]) : daemonSocketName <:+: front := by
  have noEnd : newline ∉ daemonSocketName := by decide
  rcases List.infix_append_iff_ne_nil.mp isInfix with
    inFront | inBack | ⟨first, second, -, someSecond, isName, -, isPrefix⟩
  · exact inFront
  · exact absurd inBack (by decide)
  · rcases List.prefix_concat_iff.mp (show second <+: [] ++ [newline] from isPrefix) with
      isEnd | isNil
    · exact absurd (isName ▸ List.mem_append_right first (isEnd ▸ List.mem_singleton_self _)) noEnd
    · exact absurd (List.prefix_nil.mp isNil) someSecond

theorem infix_of_infix_field {hexadecimal : Bool} (field : Field hexadecimal) {rest : List Byte}
    (isInfix : daemonSocketName <:+: field.text ++ rest) : daemonSocketName <:+: rest := by
  refine infix_of_infix_append isInfix fun member => ?_
  rcases List.mem_cons.mp member with isSpace | member
  · exact absurd isSpace (by decide)
  · rcases List.mem_append.mp member with padding | digit
    · exact absurd (List.eq_of_mem_replicate padding) (by decide)
    · have isDigit := field.digits.allDigits 109 digit
      cases hexadecimal <;> exact absurd isDigit (by decide)

theorem daemon_of_infix_text {line : SocketLine} (isInfix : daemonSocketName <:+: line.text) :
    line.IsDaemon := by
  rw [line.text_eq] at isInfix
  have inFields : daemonSocketName <:+: line.fields := by
    refine infix_of_infix_append isInfix fun member => ?_
    rcases List.mem_append.mp member with digit | isColon
    · exact absurd (line.num.allDigits 109 digit) (by decide)
    · exact absurd (List.mem_singleton.mp isColon) (by decide)
  have inTail : daemonSocketName <:+: line.tail :=
    infix_of_infix_field _ <| infix_of_infix_field _ <| infix_of_infix_field _ <|
      infix_of_infix_field _ <| infix_of_infix_field _ <| infix_of_infix_field _ inFields
  unfold SocketLine.IsDaemon SocketLine.pathText
  unfold SocketLine.tail at inTail
  cases isPath : line.path with
  | none =>
      rw [isPath] at inTail
      exact absurd inTail (by decide)
  | some path =>
      rw [isPath] at inTail
      have space : (109 : Byte) ∉ [(32 : Byte)] := by decide
      exact infix_of_infix_newline (infix_of_infix_append inTail space)

/-! ## When the daemon is detected -/

/-- The answer is whether some socket has a path with the name in it. -/
def Exact (lines : List SocketLine) : Prop :=
  daemonExists (some (listing lines)) = some (decide (∃ line ∈ lines, line.IsDaemon))

/-- Every word of the line has room in `Path`. -/
def SocketLine.Fits (line : SocketLine) : Prop :=
  ∀ word, word <:+: line.text → (∀ byte, byte ∈ word → isGraph byte = true) →
    word.length < pathMax

/-- Sockets without a word for a path come two by two, and other paths are one word. -/
inductive Paired : List SocketLine → Prop
  | nil : Paired []
  | named {line : SocketLine} {rest : List SocketLine} (someWord : line.firstWord ≠ [])
      (oneWord : line.secondWord = []) (paired : Paired rest) : Paired (line :: rest)
  | unnamed {line next : SocketLine} {rest : List SocketLine} (noWord : line.firstWord = [])
      (nextNoWord : next.firstWord = []) (paired : Paired rest) : Paired (line :: next :: rest)

/-- The first word of a path has the name, and the lines before it are paired. -/
def Reached (lines : List SocketLine) : Prop :=
  ∃ before line after, lines = before ++ line :: after ∧ Paired before ∧
    daemonSocketName <:+: line.firstWord ∧ ∀ other, other ∈ before ++ [line] → other.Fits

/-- There is no socket of the daemon, or one that is reached. -/
def Detectable (lines : List SocketLine) : Prop :=
  (∀ line, line ∈ lines → ¬line.IsDaemon ∧ line.Fits) ∨ Reached lines

def beginsNumber (word : CString) : Bool :=
  word.head?.any fun byte => isHexDigit byte || byte = 43 || byte = 45

structure SocketLine.Ordinary (line : SocketLine) : Prop where
  fits : line.Fits
  first : beginsNumber line.firstWord = false
  second : beginsNumber line.secondWord = false

/-! ## Lines in step and out of step -/

section Line

variable {line : SocketLine}

theorem SocketLine.firstWord_graph (line : SocketLine) :
    ∀ byte, byte ∈ line.firstWord → isGraph byte = true :=
  fun _ inside => List.mem_takeWhile_imp inside

theorem SocketLine.firstWord_infix (line : SocketLine) : line.firstWord <:+: line.pathText :=
  (List.takeWhile_prefix _).isInfix.trans (List.dropWhile_suffix _).isInfix

theorem SocketLine.firstWord_text (line : SocketLine) : line.firstWord <:+: line.text := by
  refine line.firstWord_infix.trans ?_
  have inTail : line.pathText <:+: line.tail := by
    unfold SocketLine.pathText SocketLine.tail
    cases line.path with
    | none => exact List.nil_infix
    | some path => exact ⟨[32], [newline], by simp⟩
  refine inTail.trans ?_
  rw [line.text_eq, SocketLine.fields]
  simp only [← List.append_assoc]
  exact (List.suffix_append _ _).isInfix

theorem SocketLine.Fits.firstWord (fits : line.Fits) : tooLong line.firstWord = false :=
  decide_eq_false (Nat.not_le.mpr (fits _ line.firstWord_text line.firstWord_graph))

theorem SocketLine.Fits.num (fits : line.Fits) : tooLong (line.num.text ++ [colon]) = false := by
  refine decide_eq_false (Nat.not_le.mpr (fits _ ?_ (isGraph_num line)))
  rw [line.text_eq]
  exact (List.prefix_append _ _).isInfix

theorem SocketLine.noNul_firstWord (line : SocketLine) : 0 ∉ line.firstWord := by
  intro isNul
  have inPath := line.firstWord_infix.subset isNul
  unfold SocketLine.pathText at inPath
  cases isPath : line.path with
  | none =>
      rw [isPath] at inPath
      cases inPath
  | some path =>
      rw [isPath] at inPath
      exact path.noNul inPath

theorem dropWhile_of_takeWhile_nil {text : List Byte}
    (noWord : (text.dropWhile isSpace).takeWhile isGraph = []) : text.dropWhile isSpace = [] := by
  cases dropped : text.dropWhile isSpace with
  | nil => rfl
  | cons byte rest =>
      have graph := isGraph_of_dropWhile dropped
      rw [dropped, List.takeWhile_cons_of_pos graph] at noWord
      cases noWord

theorem read_start_blank {text : List Byte}
    (noWord : (text.dropWhile isSpace).takeWhile isGraph = []) :
    read start (text ++ [newline]) = .waiting start := by
  rw [← read_start_dropWhile, dropWhile_isSpace_append (dropWhile_of_takeWhile_nil noWord)]
  rfl

theorem read_start_noNumber {byte : Byte} (graph : isGraph byte = true)
    (noNumber : (isHexDigit byte || byte = 43 || byte = 45) = false) (rest : List Byte) :
    read start (byte :: rest) = .lost := by
  simp only [Bool.or_eq_false_iff, decide_eq_false_iff_not] at noNumber
  rcases noNumber with ⟨⟨noDigit, notPlus⟩, notMinus⟩
  have notSpace : (byte :: rest).dropWhile isSpace = byte :: rest :=
    List.dropWhile_cons_of_neg (by simpa [isGraph] using graph)
  have notZero : byte ≠ 48 := by
    rintro rfl
    cases noDigit
  have noStart : skipStart true (byte :: rest) = byte :: rest := by
    have noSign : skipSign (byte :: rest) = byte :: rest := by
      rw [skipSign, if_neg (not_or.mpr ⟨notPlus, notMinus⟩)]
    rw [skipStart, if_pos rfl, noSign]
    cases rest with
    | nil => rfl
    | cons x rest => rw [skipBase, if_neg fun both => notZero both.1]
  have scanned : scan record (byte :: rest) = stop .mismatch (byte :: rest) := by
    have isNumber : scanNumber true (byte :: rest) = (false, byte :: rest) := by
      have none : isDigitOf true byte = false := noDigit
      rw [scanNumber, noStart]
      simp [none]
    rw [show record = .number true :: record.tail from rfl, scan, notSpace]
    dsimp only
    rw [isNumber]
    rfl
  have ended := @endCall_ended 0 (stop .mismatch (byte :: rest)) rfl (by simp [stop])
  apply readLoop.run_of_finish
  rw [body_start, scanned]
  exact ended

/-- A word that begins no number ends the loop where a record is expected. -/
theorem read_start_lost {text : List Byte}
    (someWord : (text.dropWhile isSpace).takeWhile isGraph ≠ [])
    (noNumber : beginsNumber ((text.dropWhile isSpace).takeWhile isGraph) = false) :
    read start (text ++ [newline]) = .lost := by
  rw [← read_start_dropWhile]
  cases dropped : text.dropWhile isSpace with
  | nil =>
      rw [dropped] at someWord
      exact absurd rfl someWord
  | cons byte rest =>
      have graph := isGraph_of_dropWhile dropped
      rw [dropped, List.takeWhile_cons_of_pos graph] at noNumber
      rw [dropWhile_isSpace_cons dropped]
      exact read_start_noNumber graph noNumber _

theorem read_start_tail (line : SocketLine) :
    read start line.tail = read start (line.pathText ++ [newline]) := by
  rw [← read_start_dropWhile, line.dropWhile_tail, read_start_dropWhile]

theorem readLine_start_unnamed (noWord : line.firstWord = []) :
    readLine start line = .waiting behind := by
  rw [readLine, if_pos rfl, if_pos noWord]

theorem readLine_behind (fits : line.Fits) :
    readLine behind line = read start (line.pathText ++ [newline]) := by
  have other : behind ≠ start := by decide
  rw [readLine, if_neg other, if_pos rfl, fits.num, ← read_start_tail]
  rfl

theorem readLine_behind_unnamed (fits : line.Fits) (noWord : line.firstWord = []) :
    readLine behind line = .waiting start := by
  rw [readLine_behind fits]
  exact read_start_blank noWord

/-- The line of a named socket behind an odd number of unnamed ones ends the loop. -/
theorem readLine_behind_named (ordinary : line.Ordinary) (someWord : line.firstWord ≠ []) :
    readLine behind line = .lost := by
  rw [readLine_behind ordinary.fits]
  exact read_start_lost someWord ordinary.first

theorem readLine_start_named (fits : line.Fits) (someWord : line.firstWord ≠ []) :
    readLine start line =
      if daemonSocketName <:+: line.firstWord then .found
      else read start (line.leftover ++ [newline]) := by
  rw [readLine, if_pos rfl, if_neg someWord, verdict, fits.firstWord,
    if_neg Bool.false_ne_true]
  by_cases isName : daemonSocketName <:+: line.firstWord
  · rw [if_pos isName, if_pos ((hasName_iff line.noNul_firstWord).mpr isName)]
    rfl
  · rw [if_neg isName, if_neg fun named => isName ((hasName_iff line.noNul_firstWord).mp named)]
    rfl

end Line

/-! ## Listings -/

section Listings

variable {lines : List SocketLine}

theorem readLines_verdict {pending : Pending} {outcome : Outcome}
    (decided : readLines pending lines = outcome)
    (decides : outcome = .found ∨ outcome = .overflow) :
    ∃ line ∈ lines, ∃ word, word <:+: line.text ∧
      (∀ byte, byte ∈ word → isGraph byte = true) ∧ verdict word = some outcome := by
  induction lines generalizing pending with
  | nil =>
      cases decided
      rcases decides with isFound | isOverflow <;> contradiction
  | cons line rest induction =>
      rw [readLines] at decided
      by_cases waits : ∃ next, readLine pending line = .waiting next
      · rcases waits with ⟨next, waits⟩
        rw [waits] at decided
        rcases induction decided with ⟨other, member, word⟩
        exact ⟨other, List.mem_cons_of_mem _ member, word⟩
      · have here : read pending line.text = outcome := by
          rw [read_line, ← decided]
          split
          · rename_i next isWaiting
            exact absurd ⟨next, isWaiting⟩ waits
          · rfl
        exact ⟨line, List.mem_cons_self, read_verdict here decides⟩

theorem readLines_found {pending : Pending} (found : readLines pending lines = .found) :
    ∃ line ∈ lines, line.IsDaemon := by
  rcases readLines_verdict found (Or.inl rfl) with ⟨line, member, word, inText, -, isVerdict⟩
  have inWord := of_decide_eq_true (hasName_of_verdict isVerdict)
  exact ⟨line, member, daemon_of_infix_text
    ((inWord.trans (List.takeWhile_prefix _).isInfix).trans inText)⟩

theorem readLines_overflow {pending : Pending} (overflow : readLines pending lines = .overflow) :
    ∃ line ∈ lines, ¬line.Fits := by
  rcases readLines_verdict overflow (Or.inr rfl) with ⟨line, member, word, inText, graph, isVerdict⟩
  have isLong := of_decide_eq_true (tooLong_of_verdict isVerdict)
  exact ⟨line, member, fun fits => absurd (fits word inText graph) (Nat.not_lt.mpr isLong)⟩

theorem found_of_reached (reached : Reached lines) : readLines start lines = .found := by
  rcases reached with ⟨before, daemon, after, rfl, paired, isName, fits⟩
  induction paired with
  | nil =>
      have someWord : daemon.firstWord ≠ [] := by
        intro noWord
        rw [noWord] at isName
        exact absurd isName (by decide)
      have fitsDaemon := fits daemon (List.mem_singleton_self _)
      rw [List.nil_append, readLines, readLine_start_named fitsDaemon someWord, if_pos isName]
  | @named line rest someWord oneWord paired induction =>
      have fitsLine := fits line List.mem_cons_self
      rw [List.cons_append, readLines, readLine_start_named fitsLine someWord]
      by_cases daemonToo : daemonSocketName <:+: line.firstWord
      · rw [if_pos daemonToo]
      · rw [if_neg daemonToo, read_start_blank oneWord]
        exact induction fun other member => fits other (List.mem_cons_of_mem _ member)
  | @unnamed line next rest noWord nextNoWord paired induction =>
      have fitsNext := fits next (List.mem_cons_of_mem _ List.mem_cons_self)
      rw [List.cons_append, readLines, readLine_start_unnamed noWord]
      dsimp only
      rw [List.cons_append, readLines, readLine_behind_unnamed fitsNext nextNoWord]
      exact induction fun other member =>
        fits other (List.mem_cons_of_mem _ (List.mem_cons_of_mem _ member))

theorem Reached.cons {line : SocketLine} {rest : List SocketLine} (fits : line.Fits)
    (someWord : line.firstWord ≠ []) (oneWord : line.secondWord = []) (reached : Reached rest) :
    Reached (line :: rest) := by
  rcases reached with ⟨before, daemon, after, rfl, paired, isName, others⟩
  exact ⟨line :: before, daemon, after, rfl, .named someWord oneWord paired, isName,
    List.forall_mem_cons.mpr ⟨fits, others⟩⟩

theorem Reached.cons_cons {line next : SocketLine} {rest : List SocketLine} (fits : line.Fits)
    (nextFits : next.Fits) (noWord : line.firstWord = []) (nextNoWord : next.firstWord = [])
    (reached : Reached rest) : Reached (line :: next :: rest) := by
  rcases reached with ⟨before, daemon, after, rfl, paired, isName, others⟩
  exact ⟨line :: next :: before, daemon, after, rfl, .unnamed noWord nextNoWord paired, isName,
    List.forall_mem_cons.mpr ⟨fits, List.forall_mem_cons.mpr ⟨nextFits, others⟩⟩⟩

theorem reached_of_found (ordinary : ∀ line, line ∈ lines → line.Ordinary)
    (found : readLines start lines = .found) : Reached lines := by
  induction isLength : lines.length using Nat.strong_induction_on generalizing lines with
  | _ length induction =>
      subst isLength
      cases lines with
      | nil => cases found
      | cons line rest =>
          rcases List.forall_mem_cons.mp ordinary with ⟨ordinaryLine, ordinaryRest⟩
          have fits := ordinaryLine.fits
          rw [readLines] at found
          by_cases someWord : line.firstWord ≠ []
          · rw [readLine_start_named fits someWord] at found
            by_cases isName : daemonSocketName <:+: line.firstWord
            · exact ⟨[], line, rest, rfl, .nil, isName,
                List.forall_mem_singleton.mpr fits⟩
            · rw [if_neg isName] at found
              by_cases oneWord : line.secondWord = []
              · rw [read_start_blank oneWord] at found
                exact (induction rest.length (Nat.lt_succ_self _) ordinaryRest found rfl).cons fits
                  someWord oneWord
              · rw [read_start_lost oneWord ordinaryLine.second] at found
                cases found
          · have noWord := not_not.mp someWord
            rw [readLine_start_unnamed noWord] at found
            cases rest with
            | nil => cases found
            | cons next rest =>
                rcases List.forall_mem_cons.mp ordinaryRest with ⟨ordinaryNext, ordinaryRest⟩
                dsimp only at found
                rw [readLines] at found
                by_cases nextNoWord : next.firstWord = []
                · rw [readLine_behind_unnamed ordinaryNext.fits nextNoWord] at found
                  exact (induction rest.length (by simp) ordinaryRest found rfl).cons_cons fits
                    ordinaryNext.fits noWord nextNoWord
                · rw [readLine_behind_named ordinaryNext nextNoWord] at found
                  cases found

theorem exact_of_detectable (detectable : Detectable lines) : Exact lines := by
  rw [Exact, daemonExists_listing, read_lines]
  rcases detectable with nowhere | reached
  · have isNot : ¬∃ line ∈ lines, line.IsDaemon :=
      fun ⟨line, member, isDaemon⟩ => (nowhere line member).1 isDaemon
    rw [decide_eq_false isNot]
    cases outcome : readLines start lines with
    | found => exact absurd (readLines_found outcome) isNot
    | overflow =>
        rcases readLines_overflow outcome with ⟨line, member, tooLong⟩
        exact absurd (nowhere line member).2 tooLong
    | lost => rfl
    | waiting pending => rfl
  · have found := found_of_reached reached
    rw [found, decide_eq_true (readLines_found found)]
    rfl

/-- Where paths do not look like numbers, the daemon is detected exactly if it is reached over
unnamed sockets in pairs; such lines before it are enough in any listing. -/
theorem exact_iff_detectable (lines : List SocketLine) :
    (Detectable lines → Exact lines) ∧
      ((∀ line, line ∈ lines → line.Ordinary) → (Exact lines ↔ Detectable lines)) := by
  refine ⟨exact_of_detectable, fun ordinary => ⟨fun exact => ?_, exact_of_detectable⟩⟩
  by_cases isThere : ∃ line ∈ lines, line.IsDaemon
  · rw [Exact, daemonExists_listing, read_lines, decide_eq_true isThere] at exact
    cases outcome : readLines start lines with
    | found => exact Or.inr (reached_of_found ordinary outcome)
    | overflow =>
        rw [outcome] at exact
        cases exact
    | lost =>
        rw [outcome] at exact
        cases exact
    | waiting pending =>
        rw [outcome] at exact
        cases exact
  · exact Or.inl fun line member =>
      ⟨fun isDaemon => isThere ⟨line, member, isDaemon⟩, (ordinary line member).fits⟩

end Listings

/-- A datagram socket without a name. -/
def unnamedSocket : SocketLine where
  num := .ofText (ascii "0000000000000000") (by decide) (by decide)
  refCount := ⟨0, .ofText (ascii "00000002") (by decide) (by decide)⟩
  protocol := ⟨0, .ofText (ascii "00000000") (by decide) (by decide)⟩
  flags := ⟨0, .ofText (ascii "00000000") (by decide) (by decide)⟩
  type := ⟨0, .ofText (ascii "0002") (by decide) (by decide)⟩
  st := ⟨0, .ofText (ascii "01") (by decide) (by decide)⟩
  inode := ⟨1, .ofText (ascii "9042") (by decide) (by decide)⟩
  path := none

def daemonSocket : SocketLine where
  num := .ofText (ascii "0000000000000000") (by decide) (by decide)
  refCount := ⟨0, .ofText (ascii "00000002") (by decide) (by decide)⟩
  protocol := ⟨0, .ofText (ascii "00000000") (by decide) (by decide)⟩
  flags := ⟨0, .ofText (ascii "00010000") (by decide) (by decide)⟩
  type := ⟨0, .ofText (ascii "0001") (by decide) (by decide)⟩
  st := ⟨0, .ofText (ascii "01") (by decide) (by decide)⟩
  inode := ⟨0, .ofText (ascii "12345") (by decide) (by decide)⟩
  path := some ⟨ascii "@me.jpacg.su.daemon.993", by decide, by decide⟩

theorem SocketLine.fits_of_short {line : SocketLine} (short : line.text.length < pathMax) :
    line.Fits :=
  fun _ inText _ => Nat.lt_of_le_of_lt inText.length_le short

/-- Two unnamed sockets before the daemon's do not hide it. -/
theorem exact_behind_pair :
    (∀ line, line ∈ [unnamedSocket, unnamedSocket, daemonSocket] → line.Ordinary) ∧
      Reached [unnamedSocket, unnamedSocket, daemonSocket] ∧
      Exact [unnamedSocket, unnamedSocket, daemonSocket] := by
  have unnamed : unnamedSocket.Ordinary :=
    ⟨SocketLine.fits_of_short (by decide), by decide, by decide⟩
  have daemon : daemonSocket.Ordinary :=
    ⟨SocketLine.fits_of_short (by decide), by decide, by decide⟩
  have ordinary : ∀ line, line ∈ [unnamedSocket, unnamedSocket, daemonSocket] →
      line.Ordinary := by
    simp [unnamed, daemon]
  have reached : Reached [unnamedSocket, unnamedSocket, daemonSocket] :=
    ⟨[unnamedSocket, unnamedSocket], daemonSocket, [], rfl, .unnamed rfl rfl .nil, by decide,
      fun line member => (ordinary line member).fits⟩
  have detects := (exact_iff_detectable [unnamedSocket, unnamedSocket, daemonSocket]).2 ordinary
  exact ⟨ordinary, reached, detects.mpr (Or.inr reached)⟩

/-- One unnamed socket before the daemon's hides it. -/
theorem exact_fails :
    listing [unnamedSocket, daemonSocket] =
        ascii "Num       RefCount Protocol Flags    Type St Inode Path\n" ++
          ascii "0000000000000000: 00000002 00000000 00000000 0002 01  9042\n" ++
          ascii "0000000000000000: 00000002 00000000 00010000 0001 01 12345 " ++
          ascii "@me.jpacg.su.daemon.993\n" ∧
      daemonExists (some (listing [unnamedSocket, daemonSocket])) = some false ∧
      ¬Exact [unnamedSocket, daemonSocket] := by
  have isDaemon : daemonSocket.IsDaemon := by decide
  have missed : daemonExists (some (listing [unnamedSocket, daemonSocket])) = some false := by
    rw [daemonExists_listing, read_lines]
    decide
  refine ⟨by decide +kernel, missed, fun exact => ?_⟩
  have isThere : ∃ line ∈ [unnamedSocket, daemonSocket], line.IsDaemon :=
    ⟨daemonSocket, by decide, isDaemon⟩
  rw [Exact, missed, decide_eq_true isThere] at exact
  cases exact

end SuBinary.Su.DaemonExists
