import SuBinary.Foundation.TokenLoop

/-! # Statement parsers

`parse_pattern_1` to `parse_pattern_5` of `magiskpolicy.c`. The parsers work on
the statement in memory; the names they collect are pointers into it.
-/

namespace SuBinary.Magiskpolicy

open SuBinary

/-! ## Policy operations -/

inductive RuleAction
  | allow
  | deny
  | auditallow
  | auditdeny
deriving DecidableEq

inductive XpermAction
  | allowxperm
  | auditallowxperm
  | dontauditxperm
deriving DecidableEq

inductive TypeAction
  | create
  | permissive
  | enforce
deriving DecidableEq

/-- A call of one of the operations of `api.c`; a name that is missing is
`ALL`. -/
inductive PolicyCall
  | rule (action : RuleAction) (s t c p : Option CString)
  | xperm (action : XpermAction) (s t c range : Option CString)
  | attradd (s a : Option CString)
  | typeState (action : TypeAction) (s : Option CString)
  | typetrans (s t c d : CString) (o : Option CString)
deriving DecidableEq

abbrev Parsed := Nat × List PolicyCall

/-! ## The state of a scan -/

/-- The variables of the loop: `state`, `in_bracket`, up to three vectors of
names and one more name. A name that is missing is `ALL`. -/
structure Scan (Name : Type) where
  state : Nat
  inBracket : Bool
  first : List (Option Name)
  second : List (Option Name)
  third : List (Option Name)
  single : Option Name

/-- The single name is not set before its position is reached, and not read
before it is set. -/
def Scan.start : Scan Name where
  state := 0
  inBracket := false
  first := []
  second := []
  third := []
  single := none

def Scan.map (change : Name → Other) (scan : Scan Name) : Scan Other where
  state := scan.state
  inBracket := scan.inBracket
  first := scan.first.map (Option.map change)
  second := scan.second.map (Option.map change)
  third := scan.third.map (Option.map change)
  single := scan.single.map change

inductive Slot
  | first
  | second
  | third
  | single
  | skip
deriving DecidableEq

/-- What differs between the loops of the bracketed patterns: the slot of each
state, with `none` for the `default` of the `switch`, the states in which a
brace is an error, and the state that has to be reached. -/
structure Pattern where
  slot : Nat → Option Slot
  plain : Nat → Bool
  final : Nat

/-- `if (!in_bracket) ++state;` -/
def Scan.advance (scan : Scan Name) : Scan Name :=
  if scan.inBracket then scan else { scan with state := scan.state + 1 }

namespace Pattern

variable (pattern : Pattern)

def openBrace (scan : Scan Name) : Option (Scan Name) :=
  if scan.inBracket || pattern.plain scan.state then none
  else some { scan with inBracket := true }

def closeBrace (scan : Scan Name) : Option (Scan Name) :=
  if !scan.inBracket || pattern.plain scan.state then none
  else some { scan with inBracket := false }

def addName (name : Option Name) (scan : Scan Name) : Option (Scan Name) :=
  match pattern.slot scan.state with
  | none => none
  | some .first => some { scan with first := scan.first ++ [name] }
  | some .second => some { scan with second := scan.second ++ [name] }
  | some .third => some { scan with third := scan.third ++ [name] }
  | some .single => some { scan with single := name }
  | some .skip => some scan

end Pattern

/-! ## The loop of the bracketed patterns -/

def openByte : Byte := 123

def closeByte : Byte := 125

def star : Byte := 42

def space : Byte := 32

def visitToken (pattern : Pattern) (tok : Nat) (scan : Scan Nat) :
    MemM (Visit Nat (Scan Nat)) := do
  if (← readCell tok) = openByte then
    match pattern.openBrace scan with
    | none => return .reject
    | some scan =>
        if (← readCell (tok + 1)) ≠ 0 then
          return .again (tok + 1) scan
        else
          return .next scan.advance
  else
    let length ← strlen tok
    if (← readCell (tok + length - 1)) = closeByte then
      match pattern.closeBrace scan with
      | none => return .reject
      | some scan =>
          if length - 1 ≠ 0 then
            writeCell (tok + length - 1) 0
            return .again tok scan
          else
            return .next scan.advance
    else
      let first ← readCell tok
      match pattern.addName (if first = star then none else some tok) scan with
      | none => return .reject
      | some scan => return .next scan.advance

theorem visitToken_grows (pattern : Pattern) (tok : Nat) (scan : Scan Nat) :
    Grows (visitToken pattern tok scan) := by
  refine Grows.bind (Grows.readCell _) fun first => ?_
  split
  · cases pattern.openBrace scan with
    | none => exact Grows.pure _
    | some opened =>
        refine Grows.bind (Grows.readCell _) fun second => ?_
        split
        · exact Grows.pure _
        · exact Grows.pure _
  · refine Grows.bind (Grows.strlen _) fun length => ?_
    refine Grows.bind (Grows.readCell _) fun last => ?_
    split
    · cases pattern.closeBrace scan with
      | none => exact Grows.pure _
      | some closed =>
          dsimp only
          split
          · exact Grows.bind (Grows.writeCell _ _) fun _ => Grows.pure _
          · exact Grows.pure _
    · refine Grows.bind (Grows.readCell _) fun first => ?_
      cases pattern.addName (if first = star then none else some tok) scan with
      | none => exact Grows.pure _
      | some added => exact Grows.pure _

theorem visitToken_shrinks {pattern : Pattern} {tok : Nat} {scan : Scan Nat} {memory : Memory}
    {next : Nat} {scanNext : Scan Nat} {after : Memory}
    (ran : visitToken pattern tok scan memory = some (.again next scanNext, after)) :
    (stringAt after.cells next).length < (stringAt memory.cells tok).length := by
  rcases FaultM.bind_some.mp ran with ⟨first, middle, readFirst, ran⟩
  rcases readCell_some readFirst with ⟨isFirst, rfl⟩
  split at ran
  · rename_i opens
    cases opened : pattern.openBrace scan with
    | none =>
        simp only [opened] at ran
        cases FaultM.pure_some.mp ran
    | some inside =>
        simp only [opened] at ran
        rcases FaultM.bind_some.mp ran with ⟨second, last, readSecond, ran⟩
        rcases readCell_some readSecond with ⟨-, rfl⟩
        split at ran
        · cases FaultM.pure_some.mp ran
          have someFirst : first ≠ 0 := by
            rw [opens]
            decide
          rw [stringAt_cons isFirst someFirst]
          exact Nat.lt_succ_self _
        · cases FaultM.pure_some.mp ran
  · rcases FaultM.bind_some.mp ran with ⟨length, measured, isLength, ran⟩
    rcases strlen_some isLength with ⟨rfl, rfl⟩
    rcases FaultM.bind_some.mp ran with ⟨last, middle, readLast, ran⟩
    rcases readCell_some readLast with ⟨isLast, rfl⟩
    split at ran
    · cases closed : pattern.closeBrace scan with
      | none =>
          simp only [closed] at ran
          cases FaultM.pure_some.mp ran
      | some outside =>
          simp only [closed] at ran
          split at ran
          · rename_i longer
            rcases FaultM.bind_some.mp ran with ⟨_, written, write, ran⟩
            cases FaultM.pure_some.mp ran
            rw [writeCell_some write, Nat.add_sub_assoc (by omega)]
            have := length_stringAt_set_le memory.cells tok
              ((stringAt memory.cells tok).length - 1)
            simp only [Memory.touch] at longer ⊢
            omega
          · cases FaultM.pure_some.mp ran
    · rcases FaultM.bind_some.mp ran with ⟨again, middle, readAgain, ran⟩
      cases added : pattern.addName (if again = star then none else some tok) scan with
      | none =>
          simp only [added] at ran
          cases FaultM.pure_some.mp ran
      | some named =>
          simp only [added] at ran
          cases FaultM.pure_some.mp ran

/-- `strtok_r(..., " ", ...)` and the body of the loop. -/
def bracketVisitor (pattern : Pattern) : Visitor (Scan Nat) where
  delimiter := (· = space)
  visit := visitToken pattern
  grows := visitToken_grows pattern _ _
  shrinks := visitToken_shrinks

/-- The scan of a bracketed pattern, followed by the loops over the collected
names. -/
def parseBracketed (pattern : Pattern) (perform : Scan CString → Parsed) (statement : Nat) :
    MemM Parsed := do
  match ← (bracketVisitor pattern).scan statement Scan.start with
  | none => return (1, [])
  | some scan =>
      if scan.state ≠ pattern.final then return (1, [])
      else
        let memory ← get
        return perform (scan.map (stringAt memory.cells))

/-- The loops call the operation of `action` for each combination; the `switch`
over the action stands inside them. -/
def performAll {Kind Combination : Type} (combinations : List Combination)
    (action : Option Kind) (call : Kind → Combination → PolicyCall) : Parsed :=
  match combinations, action with
  | [], _ => (0, [])
  | _ :: _, none => (1, [])
  | _ :: _, some action => (0, combinations.map (call action))

/-! ## The patterns -/

/-- `action { source } { target } class { permission }` -/
def pattern1 : Pattern where
  slot
    | 0 => some .first
    | 1 => some .second
    | 2 => some .single
    | 3 => some .third
    | _ => none
  plain := (· = 2)
  final := 4

def ruleAction : Nat → Option RuleAction
  | 0 => some .allow
  | 1 => some .deny
  | 2 => some .auditallow
  | 3 => some .auditdeny
  | _ => none

/-- `source` is the first vector, `target` the second, `permission` the third
and `class` the single name. -/
def perform1 (action : Nat) (scan : Scan CString) : Parsed :=
  performAll (scan.first ×ˢ scan.second ×ˢ scan.third) (ruleAction action)
    fun action names => .rule action names.1 names.2.1 scan.single names.2.2

def parsePattern1 (action statement : Nat) : MemM Parsed :=
  parseBracketed pattern1 (perform1 action) statement

/-- `action { class } { attribute }` -/
def pattern2 : Pattern where
  slot
    | 0 => some .first
    | 1 => some .second
    | _ => none
  plain := fun _ => false
  final := 2

def attraddAction : Nat → Option Unit
  | 0 => some ()
  | _ => none

/-- `class` is the first vector and `attribute` the second. -/
def perform2 (action : Nat) (scan : Scan CString) : Parsed :=
  performAll (scan.first ×ˢ scan.second) (attraddAction action)
    fun _ names => .attradd names.1 names.2

def parsePattern2 (action statement : Nat) : MemM Parsed :=
  parseBracketed pattern2 (perform2 action) statement

/-- `action { source } { target } { class } ioctl range` -/
def pattern5 : Pattern where
  slot
    | 0 => some .first
    | 1 => some .second
    | 2 => some .third
    | 3 => some .skip
    | 4 => some .single
    | _ => none
  plain := fun state => state = 3 || state = 4
  final := 5

def xpermAction : Nat → Option XpermAction
  | 0 => some .allowxperm
  | 1 => some .auditallowxperm
  | 2 => some .dontauditxperm
  | _ => none

/-- `source` is the first vector, `target` the second, `class` the third and
`range` the single name. -/
def perform5 (action : Nat) (scan : Scan CString) : Parsed :=
  performAll (scan.first ×ˢ scan.second ×ˢ scan.third) (xpermAction action)
    fun action names => .xperm action names.1 names.2.1 names.2.2 scan.single

def parsePattern5 (action statement : Nat) : MemM Parsed :=
  parseBracketed pattern5 (perform5 action) statement

/-! ## The patterns without brackets -/

abbrev NameList (Name : Type) : Type := List (Option Name)

def typesVisitor : Visitor (NameList Nat) where
  delimiter := fun byte => byte = space || byte = openByte || byte = closeByte
  visit := fun tok classes => do
    let first ← readCell tok
    return .next (classes ++ [if first = star then none else some tok])
  grows := Grows.bind (Grows.readCell _) fun _ => Grows.pure _
  shrinks := by
    intro tok held memory next heldNext after ran
    rcases FaultM.bind_some.mp ran with ⟨_, _, -, ran⟩
    cases FaultM.pure_some.mp ran

def typeAction : Nat → Option TypeAction
  | 0 => some .create
  | 1 => some .permissive
  | 2 => some .enforce
  | _ => none

/-- Another action would call through an unset pointer. -/
def parsePattern3 (action statement : Nat) : MemM Parsed := do
  match ← typesVisitor.scan statement [] with
  | none => return (1, [])
  | some classes =>
      let memory ← get
      let classes := classes.map (Option.map (stringAt memory.cells))
      match typeAction action with
      | none => failure
      | some action => return (0, classes.map (.typeState action))

/-- The words of `parse_pattern_4`; its `state` is their number. -/
abbrev WordList (Name : Type) : Type := List Name

def transitionVisitor : Visitor (WordList Nat) where
  delimiter := (· = space)
  visit := fun tok words =>
    if words.length ≤ 4 then return .next (words ++ [tok]) else return .reject
  grows := by
    intro tok held memory result after
    split
    · exact Grows.pure _
    · exact Grows.pure _
  shrinks := by
    intro tok held memory next heldNext after ran
    split at ran
    · cases FaultM.pure_some.mp ran
    · cases FaultM.pure_some.mp ran

/-- `source`, `target`, `class`, `def` and the optional `filename`. -/
def performTypetrans : List CString → Parsed
  | [source, target, cls, default] => (0, [.typetrans source target cls default none])
  | [source, target, cls, default, filename] =>
      (0, [.typetrans source target cls default (some filename)])
  | _ => (1, [])

def parsePattern4 (_action statement : Nat) : MemM Parsed := do
  match ← transitionVisitor.scan statement [] with
  | none => return (1, [])
  | some words =>
      let memory ← get
      return performTypetrans (words.map (stringAt memory.cells))

end SuBinary.Magiskpolicy
