import SuBinary.Magiskpolicy.Grammar

/-! # The bracketed statements

The statements of `parse_pattern_1`, `parse_pattern_2` and `parse_pattern_5`:
when the parsers meet their grammar, and what they call.
-/

namespace SuBinary.Magiskpolicy

open SuBinary

/-! ## From tokens to results -/

theorem performAll_some {Kind Combination : Type} (combinations : List Combination) (kind : Kind)
    (call : Kind → Combination → PolicyCall) :
    performAll combinations (some kind) call = (0, combinations.map (call kind)) := by
  cases combinations with
  | nil => rfl
  | cons first rest => rfl

theorem parseTokens_cases (pattern : Pattern) (perform : Scan CString → Parsed)
    (noSlot : pattern.slot pattern.final = none) (tokens : List Token) :
    parseTokens pattern perform tokens = (1, []) ∨
      ∃ items : List Item, items.length = pattern.final ∧
        (tokens = items.flatMap Item.tokens ∨
          tokens = items.flatMap Item.tokens ++ [.opening]) ∧
        ∀ index item, items[index]? = some item →
          item.IsSingle ∨ pattern.plain index = false := by
  rw [parseTokens]
  cases taken : takeTokens pattern tokens Scan.start with
  | none => exact Or.inl rfl
  | some result =>
      by_cases isFinal : result.state = pattern.final
      · rcases (spells_of_takeTokens taken).1 rfl with ⟨items, spells, isState⟩
        have length : items.length = pattern.final := by
          rw [← isFinal, isState]
          exact (Nat.zero_add _).symm
        refine Or.inr ⟨items, length, spells.tokens_eq ?_, fun index item isItem => ?_⟩
        · rw [length]
          exact (congrArg pattern.slot (Nat.zero_add _)).trans noSlot
        · have fits := spells.fits isItem
          rwa [show Scan.start.state + index = index from Nat.zero_add index] at fits
      · exact Or.inl (if_pos isFinal)

/-- The result when reading `tokens` reaches the last state; a further opening
brace does not change it. -/
theorem parseTokens_of_taken {pattern : Pattern} {perform : Scan CString → Parsed}
    {tokens : List Token} {scan : Scan CString} {parsed : Parsed}
    (taken : takeTokens pattern tokens Scan.start = some scan)
    (isFinal : scan.state = pattern.final) (outside : scan.inBracket = false)
    (notPlain : pattern.plain pattern.final = false)
    (performs : ∀ inBracket, perform { scan with inBracket } = parsed) {given : List Token}
    (isGiven : given = tokens ∨ given = tokens ++ [.opening]) :
    parseTokens pattern perform given = parsed := by
  rcases isGiven with rfl | rfl
  · rw [parseTokens, taken, finishBracketed, if_neg (not_not.mpr isFinal), ← performs false,
      ← outside]
  · have opens : pattern.openBrace scan = some { scan with inBracket := true } :=
      openBrace_some.mpr ⟨outside, by rw [isFinal, notPlain], rfl⟩
    rw [parseTokens, takeTokens_append, taken, Option.bind_some, takeTokens_singleton, takeToken,
      opens, Option.map_some, advance_inside rfl, finishBracketed,
      if_neg (not_not.mpr isFinal), performs true]

def Item.Valid (item : Item) : Prop := ∀ name, name ∈ item.names → IsName name

theorem getLast?_items (items : List Item) :
    (items.flatMap Item.tokens).getLast? ≠ some .opening := by
  rcases List.eq_nil_or_concat' items with rfl | ⟨front, item, rfl⟩
  · nofun
  · rw [List.flatMap_append, List.flatMap_singleton]
    exact Item.getLast?_tokens _ item

theorem misnamed_items (items : List Item) :
    (∃ word, Token.name word ∈ items.flatMap Item.tokens ∧ ¬IsName word) ↔
      ¬∀ item, item ∈ items → item.Valid := by
  simp only [List.mem_flatMap, Item.mem_tokens, Item.Valid, not_forall]
  constructor
  · rintro ⟨word, ⟨item, member, named⟩, wrong⟩
    exact ⟨item, member, word, named, wrong⟩
  · rintro ⟨item, member, word, named, wrong⟩
    exact ⟨word, ⟨item, member, named⟩, wrong⟩

/-- The statements that are made of items, all of whose names have to be right. -/
def itemForm {Statement : Type} (items : Statement → List Item) : Form Statement where
  tokens := fun statement => (items statement).flatMap Item.tokens
  Valid := fun statement => ∀ item, item ∈ items statement → item.Valid
  Misnamed := fun tokens => ∃ word, .name word ∈ tokens ∧ ¬IsName word
  ends := fun statement => getLast?_items (items statement)
  misnamed_iff := fun statement => misnamed_items (items statement)

/-! ## `action { source } { target } class { permission }` -/

structure RuleStatement where
  source : Item
  target : Item
  cls : CString
  permission : Item

namespace RuleStatement

variable (statement : RuleStatement)

def items : List Item :=
  [statement.source, statement.target, .single statement.cls, statement.permission]

/-- One call for each combination, in row-major order. -/
def calls (action : RuleAction) : List PolicyCall :=
  statement.source.names.flatMap fun source =>
    statement.target.names.flatMap fun target =>
      statement.permission.names.map fun permission =>
        .rule action (operand source) (operand target) (operand statement.cls)
          (operand permission)

def scan : Scan CString where
  state := 4
  inBracket := false
  first := statement.source.names.map operand
  second := statement.target.names.map operand
  third := statement.permission.names.map operand
  single := operand statement.cls

theorem takeTokens_items : takeTokens pattern1 (statement.items.flatMap Item.tokens) Scan.start =
    some statement.scan := by
  simp only [items, List.flatMap_cons, List.flatMap_nil, List.append_nil]
  rw [takeTokens_append, takeTokens_item rfl rfl (Or.inr rfl), Option.bind_some,
    takeTokens_append, takeTokens_item rfl rfl (Or.inr rfl), Option.bind_some,
    takeTokens_append, takeTokens_item rfl rfl (Or.inl (Item.isSingle_single _)), Option.bind_some,
    takeTokens_item rfl rfl (Or.inr rfl)]
  rfl

theorem perform_scan {action : Nat} {kind : RuleAction} (isKind : ruleAction action = some kind)
    (inBracket : Bool) :
    perform1 action { statement.scan with inBracket } = (0, statement.calls kind) := by
  rw [perform1, isKind, performAll_some, calls]
  simp [SProd.sprod, List.product, scan, List.flatMap_map, List.map_flatMap, Function.comp_def]

end RuleStatement

def ruleForm : Form RuleStatement := itemForm RuleStatement.items

theorem ruleForm_interprets {action : Nat} {kind : RuleAction}
    (isKind : ruleAction action = some kind) (tokens : List Token) :
    ruleForm.Interprets (RuleStatement.calls · kind) tokens
      (parseTokens pattern1 (perform1 action) tokens) where
  accepts := by
    intro statement denotes
    exact parseTokens_of_taken statement.takeTokens_items rfl rfl rfl
      (statement.perform_scan isKind) denotes
  rejects := by
    intro noStatement
    apply (parseTokens_cases pattern1 (perform1 action) rfl tokens).resolve_right
    rintro ⟨items, length, isTokens, fits⟩
    rcases List.length_eq_four.mp length with ⟨source, target, item, permission, rfl⟩
    rcases ((fits 2 item rfl).resolve_right nofun).exists_name with ⟨cls, rfl⟩
    exact noStatement { source, target, cls, permission } isTokens

/-! ## `action { class } { attribute }` -/

structure AttributeStatement where
  cls : Item
  attr : Item

namespace AttributeStatement

variable (statement : AttributeStatement)

def items : List Item := [statement.cls, statement.attr]

def calls : List PolicyCall :=
  statement.cls.names.flatMap fun cls =>
    statement.attr.names.map fun attr => .attradd (operand cls) (operand attr)

def scan : Scan CString where
  state := 2
  inBracket := false
  first := statement.cls.names.map operand
  second := statement.attr.names.map operand
  third := []
  single := none

theorem takeTokens_items : takeTokens pattern2 (statement.items.flatMap Item.tokens) Scan.start =
    some statement.scan := by
  simp only [items, List.flatMap_cons, List.flatMap_nil, List.append_nil]
  rw [takeTokens_append, takeTokens_item rfl rfl (Or.inr rfl), Option.bind_some,
    takeTokens_item rfl rfl (Or.inr rfl)]
  rfl

theorem perform_scan {action : Nat} {kind : Unit} (isKind : attraddAction action = some kind)
    (inBracket : Bool) :
    perform2 action { statement.scan with inBracket } = (0, statement.calls) := by
  rw [perform2, isKind, performAll_some, calls]
  simp [SProd.sprod, List.product, scan, List.flatMap_map, List.map_flatMap, Function.comp_def]

end AttributeStatement

def attributeForm : Form AttributeStatement := itemForm AttributeStatement.items

theorem attributeForm_interprets {action : Nat} {kind : Unit}
    (isKind : attraddAction action = some kind) (tokens : List Token) :
    attributeForm.Interprets AttributeStatement.calls tokens
      (parseTokens pattern2 (perform2 action) tokens) where
  accepts := by
    intro statement denotes
    exact parseTokens_of_taken statement.takeTokens_items rfl rfl rfl
      (statement.perform_scan isKind) denotes
  rejects := by
    intro noStatement
    apply (parseTokens_cases pattern2 (perform2 action) rfl tokens).resolve_right
    rintro ⟨items, length, isTokens, -⟩
    rcases List.length_eq_two.mp length with ⟨cls, attr, rfl⟩
    exact noStatement { cls, attr } isTokens

/-! ## `action { source } { target } { class } ioctl range` -/

def ioctlWord : CString := ascii "ioctl"

theorem valid_ioctl : (Item.single ioctlWord).Valid := by
  simp only [Item.Valid, Item.names, List.mem_singleton, forall_eq]
  decide

/-- The word in the place of `ioctl` is not looked at. -/
structure XpermStatement where
  source : Item
  target : Item
  cls : Item
  keyword : CString
  range : CString

namespace XpermStatement

variable (statement : XpermStatement)

def collections : List Item := [statement.source, statement.target, statement.cls]

def items : List Item :=
  statement.collections ++ [.single statement.keyword, .single statement.range]

def calls (action : XpermAction) : List PolicyCall :=
  statement.source.names.flatMap fun source =>
    statement.target.names.flatMap fun target =>
      statement.cls.names.map fun cls =>
        .xperm action (operand source) (operand target) (operand cls) (operand statement.range)

def scan : Scan CString where
  state := 5
  inBracket := false
  first := statement.source.names.map operand
  second := statement.target.names.map operand
  third := statement.cls.names.map operand
  single := operand statement.range

theorem takeTokens_items : takeTokens pattern5 (statement.items.flatMap Item.tokens) Scan.start =
    some statement.scan := by
  simp only [items, collections, List.cons_append, List.nil_append, List.flatMap_cons,
    List.flatMap_nil, List.append_nil]
  rw [takeTokens_append, takeTokens_item rfl rfl (Or.inr rfl), Option.bind_some,
    takeTokens_append, takeTokens_item rfl rfl (Or.inr rfl), Option.bind_some,
    takeTokens_append, takeTokens_item rfl rfl (Or.inr rfl), Option.bind_some,
    takeTokens_append, takeTokens_item rfl rfl (Or.inl (Item.isSingle_single _)),
    Option.bind_some, takeTokens_item rfl rfl (Or.inl (Item.isSingle_single _))]
  rfl

theorem perform_scan {action : Nat} {kind : XpermAction}
    (isKind : xpermAction action = some kind) (inBracket : Bool) :
    perform5 action { statement.scan with inBracket } = (0, statement.calls kind) := by
  rw [perform5, isKind, performAll_some, calls]
  simp [SProd.sprod, List.product, scan, List.flatMap_map, List.map_flatMap, Function.comp_def]

theorem dropLast_tokens : (statement.items.flatMap Item.tokens).dropLast =
    (statement.collections ++ [Item.single statement.keyword]).flatMap Item.tokens := by
  rw [items, List.append_cons, List.flatMap_append, List.flatMap_singleton]
  exact List.dropLast_concat

theorem keyword_token : (statement.items.flatMap Item.tokens).dropLast.getLast? =
    some (.name statement.keyword) := by
  rw [dropLast_tokens, List.flatMap_append, List.flatMap_singleton]
  exact List.getLast?_concat

end XpermStatement

def xpermForm : Form XpermStatement where
  tokens := fun statement => statement.items.flatMap Item.tokens
  Valid := fun statement =>
    (∀ item, item ∈ statement.collections → item.Valid) ∧ statement.keyword = ioctlWord
  Misnamed := fun tokens => (∃ word, .name word ∈ tokens.dropLast ∧ ¬IsName word) ∨
    tokens.dropLast.getLast? ≠ some (.name ioctlWord)
  ends := fun statement => getLast?_items statement.items
  misnamed_iff := by
    intro statement
    rw [statement.keyword_token, statement.dropLast_tokens, misnamed_items]
    simp only [List.mem_append, List.mem_singleton, ne_eq, Option.some.injEq, Token.name.injEq]
    rw [← not_and_or, not_iff_not]
    constructor
    · rintro ⟨valid, isKeyword⟩
      exact ⟨fun item member => valid item (Or.inl member), isKeyword⟩
    · rintro ⟨valid, isKeyword⟩
      refine ⟨?_, isKeyword⟩
      rintro item (member | rfl)
      · exact valid item member
      · rw [isKeyword]
        exact valid_ioctl

theorem xpermForm_interprets {action : Nat} {kind : XpermAction}
    (isKind : xpermAction action = some kind) (tokens : List Token) :
    xpermForm.Interprets (XpermStatement.calls · kind) tokens
      (parseTokens pattern5 (perform5 action) tokens) where
  accepts := by
    intro statement denotes
    exact parseTokens_of_taken statement.takeTokens_items rfl rfl rfl
      (statement.perform_scan isKind) denotes
  rejects := by
    intro noStatement
    apply (parseTokens_cases pattern5 (perform5 action) rfl tokens).resolve_right
    rintro ⟨items, length, isTokens, fits⟩
    rcases List.exists_cons_of_length_eq_add_one length with ⟨source, rest, rfl⟩
    rcases List.length_eq_four.mp (Nat.succ.inj length) with ⟨target, cls, third, fourth, rfl⟩
    rcases ((fits 3 third rfl).resolve_right nofun).exists_name with ⟨keyword, rfl⟩
    rcases ((fits 4 fourth rfl).resolve_right nofun).exists_name with ⟨range, rfl⟩
    exact noStatement { source, target, cls, keyword, range } isTokens

/-! ## The parsers -/

theorem parsePattern1_parses (action : Nat) (text : CString) :
    Parses (parsePattern1 action) text
      (parseTokens pattern1 (perform1 action) (detachedTokens text)) :=
  parseBracketed_parses_tokens pattern1 (perform1 action) text

theorem parsePattern2_parses (action : Nat) (text : CString) :
    Parses (parsePattern2 action) text
      (parseTokens pattern2 (perform2 action) (detachedTokens text)) :=
  parseBracketed_parses_tokens pattern2 (perform2 action) text

theorem parsePattern5_parses (action : Nat) (text : CString) :
    Parses (parsePattern5 action) text
      (parseTokens pattern5 (perform5 action) (detachedTokens text)) :=
  parseBracketed_parses_tokens pattern5 (perform5 action) text

/-- A run on the statement `text` ends, and with the result that the grammar
asks for. -/
def Form.MeetsGrammar {Statement : Type} (form : Form Statement) (text : CString)
    (ran : Option (Parsed × Memory)) : Prop :=
  ∃ parsed after, ran = some (parsed, after) ∧ form.Meets (detachedTokens text) parsed

def alone (text : CString) : Memory where
  cells := text ++ [0]
  touched := []

theorem hasString_alone {text : CString} (clean : 0 ∉ text) :
    HasString (alone text).cells 0 text :=
  HasString.of_drop clean (show (alone text).cells.drop 0 = text ++ 0 :: [] from rfl)

def SameParsed (one two : Option (Parsed × Memory)) : Prop :=
  ∃ parsed after afterTwo, one = some (parsed, after) ∧ two = some (parsed, afterTwo)

section Runs

variable {Statement : Type} {form : Form Statement} {calls : Statement → List PolicyCall}
  {parse : Nat → MemM Parsed} {memory : Memory} {statement : Nat} {text : CString}

theorem meetsGrammar_iff {parsed : Parsed} (parses : Parses parse text parsed)
    (interprets : form.Interprets calls (detachedTokens text) parsed)
    (present : HasString memory.cells statement text) :
    form.MeetsGrammar text (parse statement memory) ↔ ¬form.Strays (detachedTokens text) := by
  rcases parses memory statement present with ⟨after, ran, -⟩
  rw [← interprets.meets_iff]
  constructor
  · rintro ⟨other, last, ranOther, meets⟩
    rw [ran] at ranOther
    cases ranOther
    exact meets
  · intro meets
    exact ⟨parsed, after, ran, meets⟩

theorem accepted_iff {parsed : Parsed} (parses : Parses parse text parsed)
    (interprets : form.Interprets calls (detachedTokens text) parsed)
    (present : HasString memory.cells statement text) (list : List PolicyCall) :
    (∃ after, parse statement memory = some ((0, list), after)) ↔
      ∃ denoted, form.Denotes (detachedTokens text) denoted ∧ list = calls denoted := by
  rcases parses memory statement present with ⟨after, ran, -⟩
  rw [← interprets.accepted_iff, ran]
  constructor
  · rintro ⟨last, accepted⟩
    cases accepted
    rfl
  · rintro rfl
    exact ⟨after, rfl⟩

theorem sameParsed {outcome : List Token → Parsed}
    (parses : ∀ text, Parses parse text (outcome (detachedTokens text)))
    (present : HasString memory.cells statement text) {other : Memory} {place : Nat}
    {spelling : CString} (presentOther : HasString other.cells place spelling)
    (sameTokens : detachedTokens spelling = detachedTokens text) :
    SameParsed (parse statement memory) (parse place other) := by
  rcases parses text memory statement present with ⟨after, ran, -⟩
  rcases parses spelling other place presentOther with ⟨afterOther, ranOther, -⟩
  rw [sameTokens] at ranOther
  exact ⟨_, after, afterOther, ran, ranOther⟩

end Runs

/-- A bracketed parser meets its grammar on all statements but those that leave
an empty bracket open at the end, name something with a longer word that starts
with `*`, or have another word in the place of `ioctl`. -/
theorem bracketed_meetsGrammar_iff {memory : Memory} {statement : Nat} {text : CString}
    (present : HasString memory.cells statement text) :
    (∀ action kind, ruleAction action = some kind →
      (ruleForm.MeetsGrammar text (parsePattern1 action statement memory) ↔
        ¬ruleForm.Strays (detachedTokens text))) ∧
    (∀ action kind, attraddAction action = some kind →
      (attributeForm.MeetsGrammar text (parsePattern2 action statement memory) ↔
        ¬attributeForm.Strays (detachedTokens text))) ∧
    ∀ action kind, xpermAction action = some kind →
      (xpermForm.MeetsGrammar text (parsePattern5 action statement memory) ↔
        ¬xpermForm.Strays (detachedTokens text)) := by
  refine ⟨fun action kind isKind => ?_, fun action kind isKind => ?_,
    fun action kind isKind => ?_⟩
  · exact meetsGrammar_iff (parsePattern1_parses action text) (ruleForm_interprets isKind _)
      present
  · exact meetsGrammar_iff (parsePattern2_parses action text)
      (attributeForm_interprets isKind _) present
  · exact meetsGrammar_iff (parsePattern5_parses action text) (xpermForm_interprets isKind _)
      present

theorem plainRule_meetsGrammar :
    ruleForm.MeetsGrammar (ascii "a b c *") (parsePattern1 0 0 (alone (ascii "a b c *"))) := by
  have isTokens : detachedTokens (ascii "a b c *") =
      [.name (ascii "a"), .name (ascii "b"), .name (ascii "c"), .name (ascii "*")] := by
    decide +kernel
  have decides := bracketed_meetsGrammar_iff (hasString_alone (show 0 ∉ ascii "a b c *" by decide))
  apply (decides.1 0 .allow rfl).mpr
  rintro ⟨-, wrong⟩
  rw [isTokens] at wrong
  revert wrong
  simp [ruleForm, itemForm]
  decide

/-- A bracket left open at the end, a longer word that starts with `*`, and a
word other than `ioctl` are accepted. -/
theorem strayStatements_not_meetsGrammar :
    ¬ruleForm.MeetsGrammar (ascii "a b c d \x7b")
      (parsePattern1 0 0 (alone (ascii "a b c d \x7b"))) ∧
    ¬attributeForm.MeetsGrammar (ascii "a *b") (parsePattern2 0 0 (alone (ascii "a *b"))) ∧
    ¬xpermForm.MeetsGrammar (ascii "a b c d 1")
      (parsePattern5 0 0 (alone (ascii "a b c d 1"))) := by
  refine ⟨?_, ?_, ?_⟩
  · rw [meetsGrammar_iff (parsePattern1_parses 0 _) (ruleForm_interprets rfl _)
      (hasString_alone (by decide)), not_not]
    refine ⟨⟨⟨.single (ascii "a"), .single (ascii "b"), ascii "c", .single (ascii "d")⟩,
      Or.inr ?_⟩, Or.inl ?_⟩
    · decide +kernel
    · decide +kernel
  · rw [meetsGrammar_iff (parsePattern2_parses 0 _) (attributeForm_interprets rfl _)
      (hasString_alone (by decide)), not_not]
    refine ⟨⟨⟨.single (ascii "a"), .single (ascii "*b")⟩, Or.inl ?_⟩,
      Or.inr ⟨ascii "*b", ?_, by decide⟩⟩
    · decide +kernel
    · decide +kernel
  · rw [meetsGrammar_iff (parsePattern5_parses 0 _) (xpermForm_interprets rfl _)
      (hasString_alone (by decide)), not_not]
    refine ⟨⟨⟨.single (ascii "a"), .single (ascii "b"), .single (ascii "c"), ascii "d", ascii "1"⟩,
      Or.inl ?_⟩, Or.inr (Or.inr ?_)⟩
    · decide +kernel
    · decide +kernel

/-- An accepted statement is a call for each combination of its names, and the
result of every statement depends on its detached tokens only. -/
theorem bracketed_calls {memory : Memory} {statement : Nat} {text : CString}
    (present : HasString memory.cells statement text) :
    (∀ action kind, ruleAction action = some kind → ∀ list,
      ((∃ after, parsePattern1 action statement memory = some ((0, list), after)) ↔
        ∃ denoted, ruleForm.Denotes (detachedTokens text) denoted ∧
          list = denoted.calls kind)) ∧
    (∀ action kind, attraddAction action = some kind → ∀ list,
      ((∃ after, parsePattern2 action statement memory = some ((0, list), after)) ↔
        ∃ denoted, attributeForm.Denotes (detachedTokens text) denoted ∧
          list = denoted.calls)) ∧
    (∀ action kind, xpermAction action = some kind → ∀ list,
      ((∃ after, parsePattern5 action statement memory = some ((0, list), after)) ↔
        ∃ denoted, xpermForm.Denotes (detachedTokens text) denoted ∧
          list = denoted.calls kind)) ∧
    ∀ (other : Memory) (place : Nat) (spelling : CString),
      HasString other.cells place spelling → detachedTokens spelling = detachedTokens text →
        ∀ action,
          SameParsed (parsePattern1 action statement memory) (parsePattern1 action place other) ∧
          SameParsed (parsePattern2 action statement memory) (parsePattern2 action place other) ∧
          SameParsed (parsePattern5 action statement memory)
            (parsePattern5 action place other) := by
  refine ⟨fun action kind isKind => ?_, fun action kind isKind => ?_,
    fun action kind isKind => ?_, fun other place spelling presentOther sameTokens action => ?_⟩
  · exact accepted_iff (parsePattern1_parses action text) (ruleForm_interprets isKind _) present
  · exact accepted_iff (parsePattern2_parses action text) (attributeForm_interprets isKind _)
      present
  · exact accepted_iff (parsePattern5_parses action text) (xpermForm_interprets isKind _) present
  · exact ⟨sameParsed (parsePattern1_parses action) present presentOther sameTokens,
      sameParsed (parsePattern2_parses action) present presentOther sameTokens,
      sameParsed (parsePattern5_parses action) present presentOther sameTokens⟩

theorem gluedRule_calls :
    ∃ after, parsePattern1 0 0 (alone (ascii "\x7ba b\x7d c d *")) = some ((0,
      [.rule .allow (some (ascii "a")) (some (ascii "c")) (some (ascii "d")) none,
        .rule .allow (some (ascii "b")) (some (ascii "c")) (some (ascii "d")) none]), after) := by
  have clean : 0 ∉ ascii "\x7ba b\x7d c d *" := by decide
  refine ((bracketed_calls (hasString_alone clean)).1 0 .allow rfl _).mpr
    ⟨⟨.braced [ascii "a", ascii "b"], .single (ascii "c"), ascii "d", .single (ascii "*")⟩,
      Or.inl ?_, ?_⟩
  · decide +kernel
  · decide +kernel

end SuBinary.Magiskpolicy
