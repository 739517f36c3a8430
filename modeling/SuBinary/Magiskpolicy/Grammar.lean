import SuBinary.Magiskpolicy.ParserTokens

/-! # The grammar of the bracketed statements

Which statements the bracketed parsers accept and which operations they call,
in terms of the items of a statement.
-/

namespace SuBinary.Magiskpolicy

open SuBinary

/-! ## Items -/

inductive Item
  | single (name : CString)
  | braced (names : List CString)

namespace Item

def tokens : Item → List Token
  | single name => [.name name]
  | braced names => .opening :: (names.map .name ++ [.closing])

def names : Item → List CString
  | single name => [name]
  | braced names => names

def IsSingle : Item → Prop
  | single _ => True
  | braced _ => False

theorem isSingle_single (name : CString) : (single name).IsSingle := trivial

theorem IsSingle.exists_name {item : Item} (isSingle : item.IsSingle) :
    ∃ name, item = single name := by
  cases item with
  | single name => exact ⟨name, rfl⟩
  | braced names => exact isSingle.elim

theorem mem_tokens {item : Item} {word : CString} :
    Token.name word ∈ item.tokens ↔ word ∈ item.names := by
  cases item with
  | single name => simp [tokens, names]
  | braced names => simp [tokens, Item.names]

theorem getLast?_tokens (front : List Token) (item : Item) :
    (front ++ item.tokens).getLast? ≠ some .opening := by
  cases item with
  | single name => simp [tokens]
  | braced names =>
      rw [tokens, ← List.cons_append, ← List.append_assoc, List.getLast?_concat]
      nofun

end Item

/-! ## Reading items -/

def Scan.put (slot : Slot) (names : List (Option CString)) (scan : Scan CString) :
    Scan CString :=
  match slot with
  | .first => { scan with first := scan.first ++ names }
  | .second => { scan with second := scan.second ++ names }
  | .third => { scan with third := scan.third ++ names }
  | .single => { scan with single := names.getLastD scan.single }
  | .skip => scan

section Items

variable {pattern : Pattern} {scan : Scan CString} {slot : Slot}

theorem addName_put (isSlot : pattern.slot scan.state = some slot) (name : Option CString) :
    pattern.addName name scan = some (scan.put slot [name]) := by
  simp only [Pattern.addName, isSlot]
  cases slot <;> rfl

theorem put_put (slot : Slot) (front back : List (Option CString)) (scan : Scan CString) :
    (scan.put slot front).put slot back = scan.put slot (front ++ back) := by
  cases slot <;> simp [Scan.put]

theorem put_state (slot : Slot) (names : List (Option CString)) (scan : Scan CString) :
    (scan.put slot names).state = scan.state ∧
      (scan.put slot names).inBracket = scan.inBracket := by
  cases slot <;> exact ⟨rfl, rfl⟩

theorem put_nil (slot : Slot) (scan : Scan CString) : scan.put slot [] = scan := by
  cases slot <;> simp [Scan.put]

theorem takeTokens_names (isSlot : pattern.slot scan.state = some slot)
    (inside : scan.inBracket = true) (names : List CString) :
    takeTokens pattern (names.map .name) scan = some (scan.put slot (names.map operand)) := by
  induction names generalizing scan with
  | nil =>
      rw [List.map_nil, List.map_nil, put_nil]
      rfl
  | cons name names induction =>
      rcases put_state slot [operand name] scan with ⟨sameState, sameBracket⟩
      rw [List.map_cons, takeTokens_cons, takeToken, addName_put isSlot, Option.map_some,
        advance_inside (sameBracket.trans inside), Option.bind_some,
        induction (by rw [sameState, isSlot]) (sameBracket.trans inside), put_put,
        List.map_cons, List.singleton_append]

theorem put_bracket (slot : Slot) (names : List (Option CString)) (scan : Scan CString)
    (inBracket : Bool) :
    Scan.put slot names { scan with inBracket } = { scan.put slot names with inBracket } := by
  cases slot <;> rfl

theorem takeTokens_item {item : Item} (isSlot : pattern.slot scan.state = some slot)
    (outside : scan.inBracket = false) (fits : item.IsSingle ∨ pattern.plain scan.state = false) :
    takeTokens pattern item.tokens scan =
      some { scan.put slot (item.names.map operand) with state := scan.state + 1 } := by
  cases item with
  | single name =>
      rcases put_state slot [operand name] scan with ⟨sameState, sameBracket⟩
      rw [Item.tokens, takeTokens_singleton, takeToken, addName_put isSlot, Option.map_some,
        advance_outside (sameBracket.trans outside), sameState]
      rfl
  | braced names =>
      have notPlain : pattern.plain scan.state = false := fits.resolve_left id
      have opens : pattern.openBrace scan = some { scan with inBracket := true } :=
        openBrace_some.mpr ⟨outside, notPlain, rfl⟩
      have isSlotInside : pattern.slot { scan with inBracket := true }.state = some slot := isSlot
      rcases put_state slot (names.map operand) scan with ⟨sameState, sameBracket⟩
      have closes :
          pattern.closeBrace { scan.put slot (names.map operand) with inBracket := true } =
          some { scan.put slot (names.map operand) with inBracket := false } :=
        closeBrace_some.mpr ⟨rfl, by rw [← notPlain, ← sameState], rfl⟩
      rw [Item.tokens, takeTokens_cons, takeToken, opens, Option.map_some, advance_inside rfl,
        Option.bind_some, takeTokens_append, takeTokens_names isSlotInside rfl, Option.bind_some,
        takeTokens_singleton, takeToken, put_bracket, closes, Option.map_some,
        advance_outside rfl, sameState]
      rw [← sameBracket.trans outside]
      rfl

/-- The token lists that take the loop from a state outside of brackets through
`items`. A bracket may be left open at the end. -/
inductive Spells (pattern : Pattern) : Nat → List Token → List Item → Prop
  | done (state) : Spells pattern state [] []
  | openEnd (state) (names : List CString) (stored : names = [] ∨ pattern.slot state ≠ none) :
      Spells pattern state (.opening :: names.map .name) []
  | item {state item tokens items} (fits : item.IsSingle ∨ pattern.plain state = false)
      (rest : Spells pattern (state + 1) tokens items) :
      Spells pattern state (item.tokens ++ tokens) (item :: items)

theorem spells_of_takeTokens {tokens : List Token} {result : Scan CString}
    (taken : takeTokens pattern tokens scan = some result) :
    (scan.inBracket = false → ∃ items, Spells pattern scan.state tokens items ∧
      result.state = scan.state + items.length) ∧
    (scan.inBracket = true →
      (∃ names : List CString, tokens = names.map .name ∧
        (names = [] ∨ pattern.slot scan.state ≠ none) ∧ result.state = scan.state) ∨
      ∃ (names : List CString) (rest : List Token) (items : List Item),
        tokens = names.map .name ++ .closing :: rest ∧
        pattern.plain scan.state = false ∧ Spells pattern (scan.state + 1) rest items ∧
        result.state = scan.state + 1 + items.length) := by
  induction tokens generalizing scan with
  | nil =>
      cases taken
      exact ⟨fun _ => ⟨[], Spells.done _, rfl⟩, fun _ => Or.inl ⟨[], rfl, Or.inl rfl, rfl⟩⟩
  | cons token tokens induction =>
      rw [takeTokens_cons] at taken
      rcases Option.bind_eq_some_iff.mp taken with ⟨next, step, rest⟩
      rcases induction rest with ⟨fromOutside, fromInside⟩
      cases token with
      | opening =>
          rcases Option.map_eq_some_iff.mp step with ⟨opened, opens, rfl⟩
          rcases openBrace_some.mp opens with ⟨outside, notPlain, rfl⟩
          rw [advance_inside rfl] at fromInside
          refine ⟨fun _ => ?_, fun inside => by simp [outside] at inside⟩
          rcases fromInside rfl with ⟨names, rfl, stored, sameState⟩ |
            ⟨names, after, items, rfl, -, spells, isState⟩
          · exact ⟨[], Spells.openEnd _ names stored, sameState⟩
          · have length : result.state = scan.state + 1 + items.length := isState
            have begins : Spells pattern scan.state ((Item.braced names).tokens ++ after)
                (.braced names :: items) := Spells.item (Or.inr notPlain) spells
            refine ⟨.braced names :: items, ?_, by rw [length, List.length_cons]; omega⟩
            simpa [Item.tokens] using begins
      | closing =>
          rcases Option.map_eq_some_iff.mp step with ⟨closed, closes, rfl⟩
          rcases closeBrace_some.mp closes with ⟨inside, notPlain, rfl⟩
          rw [advance_outside rfl] at fromOutside
          refine ⟨fun outside => by simp [inside] at outside, fun _ => Or.inr ?_⟩
          rcases fromOutside rfl with ⟨items, spells, isState⟩
          exact ⟨[], tokens, items, rfl, notPlain, spells, isState⟩
      | name word =>
          rcases Option.map_eq_some_iff.mp step with ⟨added, adds, rfl⟩
          rcases addName_some adds with ⟨sameState, sameBracket⟩
          have isStored : pattern.slot scan.state ≠ none := by
            intro missing
            simp [Pattern.addName, missing] at adds
          constructor
          · intro outside
            rw [advance_outside (sameBracket.trans outside)] at fromOutside
            rcases fromOutside (sameBracket.trans outside) with ⟨items, spells, isState⟩
            simp only [sameState] at spells isState
            have begins : Spells pattern scan.state ((Item.single word).tokens ++ tokens)
                (.single word :: items) := Spells.item (Or.inl trivial) spells
            exact ⟨.single word :: items, begins, by rw [isState, List.length_cons]; omega⟩
          · intro inside
            rw [advance_inside (sameBracket.trans inside)] at fromInside
            rcases fromInside (sameBracket.trans inside) with ⟨names, rfl, -, isState⟩ |
              ⟨names, after, items, rfl, notPlain, spells, isState⟩
            · exact Or.inl ⟨word :: names, rfl, Or.inr isStored, isState.trans sameState⟩
            · rw [sameState] at notPlain spells isState
              exact Or.inr ⟨word :: names, after, items, rfl, notPlain, spells, isState⟩

theorem Spells.fits {state index : Nat} {tokens : List Token} {items : List Item} {item : Item}
    (spells : Spells pattern state tokens items) (isItem : items[index]? = some item) :
    item.IsSingle ∨ pattern.plain (state + index) = false := by
  induction spells generalizing index with
  | done state => simp at isItem
  | openEnd state names stored => simp at isItem
  | item fits rest induction =>
      cases index with
      | zero =>
          simp only [List.getElem?_cons_zero, Option.some.injEq] at isItem
          subst isItem
          exact fits
      | succ index =>
          rw [← Nat.add_assoc, Nat.add_right_comm]
          exact induction isItem

theorem Spells.tokens_eq {state : Nat} {tokens : List Token} {items : List Item}
    (spells : Spells pattern state tokens items)
    (atEnd : pattern.slot (state + items.length) = none) :
    tokens = items.flatMap Item.tokens ∨ tokens = items.flatMap Item.tokens ++ [.opening] := by
  induction spells with
  | done state => exact Or.inl rfl
  | openEnd state names stored =>
      rcases stored.resolve_right (not_not.mpr atEnd) with rfl
      exact Or.inr rfl
  | item fits rest induction =>
      rw [List.length_cons, ← Nat.add_assoc, Nat.add_right_comm] at atEnd
      rw [List.flatMap_cons]
      rcases induction atEnd with rfl | rfl
      · exact Or.inl rfl
      · exact Or.inr (List.append_assoc ..).symm

end Items

/-! ## Forms -/

/-- A name is `*` or does not start with it. -/
def IsName (word : CString) : Prop := word = [star] ∨ word.head? ≠ some star

instance (word : CString) : Decidable (IsName word) := inferInstanceAs (Decidable (_ ∨ _))

/-- The statements of a bracketed pattern. `Misnamed` says of the tokens of a
statement that it is not valid. -/
structure Form (Statement : Type) where
  tokens : Statement → List Token
  Valid : Statement → Prop
  Misnamed : List Token → Prop
  ends : ∀ statement, (tokens statement).getLast? ≠ some .opening
  misnamed_iff : ∀ statement, Misnamed (tokens statement) ↔ ¬Valid statement

namespace Form

variable {Statement : Type} (form : Form Statement)

def InGrammar (tokens : List Token) : Prop :=
  ∃ statement, form.Valid statement ∧ tokens = form.tokens statement

/-- The tokens are those of a statement, and possibly one more opening brace. -/
def Denotes (tokens : List Token) (statement : Statement) : Prop :=
  tokens = form.tokens statement ∨ tokens = form.tokens statement ++ [.opening]

/-- The tokens have the shape of a statement, but a bracket is open at the end
or a name is wrong. -/
def Strays (tokens : List Token) : Prop :=
  (∃ statement, form.Denotes tokens statement) ∧
    (tokens.getLast? = some .opening ∨ form.Misnamed tokens)

/-- The result is 0 for the grammar, and 1 without any operation otherwise. -/
def Meets (tokens : List Token) (parsed : Parsed) : Prop :=
  (parsed.1 = 0 ↔ form.InGrammar tokens) ∧ (¬form.InGrammar tokens → parsed = (1, []))

structure Interprets (calls : Statement → List PolicyCall) (tokens : List Token)
    (parsed : Parsed) : Prop where
  accepts : ∀ statement, form.Denotes tokens statement → parsed = (0, calls statement)
  rejects : (∀ statement, ¬form.Denotes tokens statement) → parsed = (1, [])

variable {form} {calls : Statement → List PolicyCall} {tokens : List Token} {parsed : Parsed}

theorem InGrammar.denotes (inGrammar : form.InGrammar tokens) :
    ∃ statement, form.Denotes tokens statement := by
  rcases inGrammar with ⟨statement, -, isTokens⟩
  exact ⟨statement, Or.inl isTokens⟩

theorem inGrammar_iff_not_strays {statement : Statement} (denotes : form.Denotes tokens statement) :
    form.InGrammar tokens ↔ ¬form.Strays tokens := by
  constructor
  · rintro ⟨other, valid, rfl⟩ ⟨-, openEnd | misnamed⟩
    · exact form.ends other openEnd
    · exact (form.misnamed_iff other).mp misnamed valid
  · intro straight
    have proper : ¬(tokens.getLast? = some .opening ∨ form.Misnamed tokens) :=
      fun wrong => straight ⟨⟨statement, denotes⟩, wrong⟩
    rcases denotes with rfl | rfl
    · refine ⟨statement, ?_, rfl⟩
      by_contra invalid
      exact proper (Or.inr ((form.misnamed_iff statement).mpr invalid))
    · exact absurd (Or.inl List.getLast?_concat) proper

theorem Interprets.meets_iff (interprets : form.Interprets calls tokens parsed) :
    form.Meets tokens parsed ↔ ¬form.Strays tokens := by
  by_cases shape : ∃ statement, form.Denotes tokens statement
  · rcases shape with ⟨statement, denotes⟩
    rw [← inGrammar_iff_not_strays denotes, interprets.accepts statement denotes]
    constructor
    · intro meets
      exact meets.1.mp rfl
    · intro inGrammar
      exact ⟨iff_of_true rfl inGrammar, fun outside => absurd inGrammar outside⟩
  · have outside : ¬form.InGrammar tokens := fun inGrammar => shape inGrammar.denotes
    rw [interprets.rejects (not_exists.mp shape)]
    refine iff_of_true ⟨iff_of_false (by decide) outside, fun _ => rfl⟩ ?_
    exact fun strays => shape strays.1

theorem Interprets.accepted_iff (interprets : form.Interprets calls tokens parsed)
    (list : List PolicyCall) :
    parsed = (0, list) ↔ ∃ statement, form.Denotes tokens statement ∧ list = calls statement := by
  constructor
  · intro accepted
    by_cases shape : ∃ statement, form.Denotes tokens statement
    · rcases shape with ⟨statement, denotes⟩
      rw [interprets.accepts statement denotes, Prod.mk.injEq] at accepted
      exact ⟨statement, denotes, accepted.2.symm⟩
    · rw [interprets.rejects (not_exists.mp shape)] at accepted
      cases accepted
  · rintro ⟨statement, denotes, rfl⟩
    exact interprets.accepts statement denotes

end Form

end SuBinary.Magiskpolicy
