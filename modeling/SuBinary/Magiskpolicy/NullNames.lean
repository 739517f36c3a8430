import SuBinary.Magiskpolicy.Main
import SuBinary.Magiskpolicy.Wildcards

/-! # Wildcards and null names

The parsers turn `*` into a null pointer wherever it stands. Most operations test
for it before they look the name up.
-/

namespace SuBinary.Magiskpolicy

open SuBinary Sepol

/-! ## The keys that are searched for -/

/-- `if (name) { search; if (!found) return 1; }` and what follows. -/
def guardedSearch (table : Hashtab Datum) (name : Option CString)
    (rest : List (Option CString)) : List (Option CString) :=
  match name with
  | none => rest
  | some key => some key :: if (hashtabSearch table key).isSome then rest else []

/-- `search; if (!found) return 1;` and what follows, which the null pointer does not
get to. -/
def plainSearch (table : Hashtab Datum) (name : Option CString)
    (rest : List (Option CString)) : List (Option CString) :=
  name ::
    match name with
    | none => []
    | some key => if (hashtabSearch table key).isSome then rest else []

/-- A permission is searched for in the class and then in its common. -/
def permSearches (db : Policydb) (c p : Option CString) : List (Option CString) :=
  match p, c.bind (hashtabSearch db.pClasses) with
  | none, _ => []
  | some _, none => []
  | some p, some cls =>
      some p ::
        if (hashtabSearch cls.permissions p).isNone && cls.comdatum.isSome then [some p] else []

/-- `set_attr` and then `get_attr_id`. -/
def attrSearches : Option CString → List (Option CString)
  | none => [none]
  | some a => [some a, some a]

/-- The searches of a creation: for the name, in `symtab_insert` for its scope, for
the new entry, and for `domain` once the arrays and the roles are done. -/
def createSearches (p : Policy) (d : Option CString) : List (Option CString) :=
  d ::
    match d with
    | none => []
    | some d =>
        if (hashtabSearch p.pTypes.table d).isSome then []
        else
          let indexed := reindex (declareType p d).1
          [some d, some d] ++
            if indexed.2 && (addToRoles indexed.1 p.pTypes.nprim).isSome then
              [some (ascii "domain")]
            else []

/-- The key of a named transition, searched for among the types. -/
def transitionSearches (p : Policy) (s t c d : CString) (o : Option CString) :
    List (Option CString) :=
  match transitionSymbols p s t c d, o with
  | .ok symbols, some filename =>
      [some (transKeyString
        { stype := symbols.src.value
          ttype := symbols.tgt.value
          tclass := symbols.cls.value
          name := filename })]
  | _, _ => []

/-- The keys that the operation of a call hands to `hashtab_search`, in this order. -/
def searchedKeys (p : Policy) : PolicyCall → List (Option CString)
  | .rule _ s t c perm =>
      guardedSearch p.pTypes.table s <| guardedSearch p.pTypes.table t <|
        guardedSearch p.pClasses.table c <| permSearches p.toPolicydb c perm
  | .xperm _ s t c _ =>
      guardedSearch p.pTypes.table s <| guardedSearch p.pTypes.table t <|
        guardedSearch p.pClasses.table c []
  | .attradd s a => plainSearch p.pTypes.table s (attrSearches a)
  | .typeState .create d => createSearches p d
  | .typeState _ s => guardedSearch p.pTypes.table s []
  | .typetrans s t c d o =>
      plainSearch p.pTypes.table (some s) <| plainSearch p.pTypes.table (some t) <|
        plainSearch p.pClasses.table (some c) <| plainSearch p.pTypes.table (some d) <|
          transitionSearches p s t c d o

/-! ## Handling of wildcards -/

/-- The call has `ALL` for one of its names. -/
def HasAll : PolicyCall → Prop
  | .rule _ s t c perm => s = none ∨ t = none ∨ c = none ∨ perm = none
  | .xperm _ s t c range => s = none ∨ t = none ∨ c = none ∨ range = none
  | .attradd s a => s = none ∨ a = none
  | .typeState _ s => s = none
  | .typetrans _ _ _ _ _ => False

/-- The rules of the call, with every type and every class in the place of `ALL`. -/
def IsRuleKey (db : Policydb) (s t c : Option CString) (effect : AvtabSpecified)
    (key : AvtabKey) : Prop :=
  ∃ src, src ∈ matched db.pTypes s ∧ ∃ tgt, tgt ∈ matched db.pTypes t ∧
    ∃ cls, cls ∈ matched db.pClasses c ∧ ruleKey src.value tgt.value cls.value effect = key

/-- `ALL` stands for every symbol of its table, for all permissions, and for all of
the ioctl range. -/
def Expands (p : Policy) (stale : UInt16 × UInt16) : PolicyCall → Policy → Prop
  | .rule action s t c perm, next =>
      ∃ found : Option PermDatum, (perm = none → found = none) ∧ ∀ key,
        (IsRuleKey p.toPolicydb s t c action.effect.1 key → next.teAvtab.data key =
          editDatum (permArg found) action.effect.2 ((p.teAvtab.data key).headD { data := 0 }) ::
            (p.teAvtab.data key).tail) ∧
        (¬IsRuleKey p.toPolicydb s t c action.effect.1 key →
          next.teAvtab.data key = p.teAvtab.data key)
  | .xperm action s t c range, next =>
      ∃ low high, (range = none → low = 0 ∧ high = 0xFFFF) ∧
        (low, high) = scanRange stale range ∧ ∀ key,
        (IsRuleKey p.toPolicydb s t c action.effect key → next.teAvtab.data key =
          editXpermDatum low high false
            ((p.teAvtab.data key).headD { data := 0, xperms := newXperms low high }) ::
              (p.teAvtab.data key).tail) ∧
        (¬IsRuleKey p.toPolicydb s t c action.effect key →
          next.teAvtab.data key = p.teAvtab.data key)
  | .attradd s a, next =>
      ∀ type, type ∈ matched p.pTypes.table s → ∀ attr, attr ∈ matched p.pTypes.table a →
        HasRowBit next.typeAttrMap (type.value - 1) (attr.value - 1)
  | .typeState .create _, next => next = p
  | .typeState action s, next =>
      ∀ bit, bit ∈ next.permissiveMap.bits ↔
        if ∃ type, type ∈ matched p.pTypes.table s ∧ type.value = bit then action = .permissive
        else bit ∈ p.permissiveMap.bits
  | .typetrans _ _ _ _ _, _ => True

/-- No null pointer is searched for, and `ALL` is either expanded or an error. -/
structure HandlesAll (invocation : Invocation) (p : Policy) : Prop where
  noNull : none ∉ searchedKeys p invocation.call
  handled : HasAll invocation.call → ∃ next result, execute invocation p = some (next, result) ∧
    (result ≠ 0 ∨ Expands p invocation.stale invocation.call next)

/-- `create` has a name, and `attradd` a type; it has an attribute unless the type is
unknown. -/
def NamesGiven (p : Policy) : PolicyCall → Prop
  | .typeState .create d => d ≠ none
  | .attradd none _ => False
  | .attradd (some s) a => a = none → hashtabSearch p.pTypes.table s = none
  | _ => True

/-! ## One call -/

theorem none_not_mem_guardedSearch {table : Hashtab Datum} {name : Option CString}
    {rest : List (Option CString)} (notLater : none ∉ rest) :
    none ∉ guardedSearch table name rest := by
  cases name with
  | none => exact notLater
  | some key =>
      simp only [guardedSearch]
      split
      · simpa using notLater
      · simp

theorem none_not_mem_plainSearch {table : Hashtab Datum} {key : CString}
    {rest : List (Option CString)} (notLater : none ∉ rest) :
    none ∉ plainSearch table (some key) rest := by
  simp only [plainSearch]
  split
  · simpa using notLater
  · simp

theorem none_not_mem_permSearches (db : Policydb) (c p : Option CString) :
    none ∉ permSearches db c p := by
  unfold permSearches
  split
  · simp
  · simp
  · split <;> simp

theorem none_not_mem_transitionSearches (p : Policy) (s t c d : CString) (o : Option CString) :
    none ∉ transitionSearches p s t c d o := by
  unfold transitionSearches
  split <;> simp

theorem none_mem_createSearches (p : Policy) (d : Option CString) :
    none ∈ createSearches p d ↔ d = none := by
  cases d with
  | none => simp [createSearches]
  | some d =>
      simp only [createSearches]
      split
      · simp
      · split <;> simp

theorem none_mem_attradd (p : Policy) (s a : Option CString) :
    none ∈ searchedKeys p (.attradd s a) ↔ ¬NamesGiven p (.attradd s a) := by
  cases s with
  | none => simp [searchedKeys, plainSearch, NamesGiven]
  | some s =>
      cases a with
      | none =>
          cases found : hashtabSearch p.pTypes.table s with
          | none => simp [searchedKeys, plainSearch, NamesGiven, found]
          | some domain => simp [searchedKeys, plainSearch, attrSearches, NamesGiven, found]
      | some a =>
          have noNull : none ∉ searchedKeys p (.attradd (some s) (some a)) :=
            none_not_mem_plainSearch (by simp [attrSearches])
          simp [NamesGiven, noNull]

/-- Only `create` and `attradd` search for a null pointer. -/
theorem none_mem_searchedKeys (p : Policy) (call : PolicyCall) :
    none ∈ searchedKeys p call ↔ ¬NamesGiven p call := by
  cases call with
  | rule action s t c perm =>
      have noNull := none_not_mem_permSearches p.toPolicydb c perm
      refine iff_of_false ?_ fun missing => missing trivial
      exact none_not_mem_guardedSearch <| none_not_mem_guardedSearch <|
        none_not_mem_guardedSearch noNull
  | xperm action s t c range =>
      refine iff_of_false ?_ fun missing => missing trivial
      exact none_not_mem_guardedSearch (none_not_mem_guardedSearch
        (none_not_mem_guardedSearch List.not_mem_nil))
  | attradd s a => exact none_mem_attradd p s a
  | typeState action s =>
      cases action with
      | create =>
          rw [searchedKeys, none_mem_createSearches]
          simp [NamesGiven]
      | permissive =>
          refine iff_of_false ?_ fun missing => missing trivial
          exact none_not_mem_guardedSearch List.not_mem_nil
      | enforce =>
          refine iff_of_false ?_ fun missing => missing trivial
          exact none_not_mem_guardedSearch List.not_mem_nil
  | typetrans s t c d o =>
      have noNull := none_not_mem_transitionSearches p s t c d o
      refine iff_of_false ?_ fun missing => missing trivial
      exact none_not_mem_plainSearch (none_not_mem_plainSearch (none_not_mem_plainSearch
        (none_not_mem_plainSearch noNull)))

/-! ## Expansion -/

theorem expands_rule (p : Policy) (stale : UInt16 × UInt16) (action : RuleAction)
    (s t c perm : Option CString) :
    ∃ next result, execute ⟨.rule action s t c perm, stale⟩ p = some (next, result) ∧
      (result ≠ 0 ∨ Expands p stale (.rule action s t c perm) next) := by
  have ran : execute ⟨.rule action s t c perm, stale⟩ p =
      some ({ p with
        teAvtab := (addRule p.toPolicydb s t c perm action.effect.1 action.effect.2).1.teAvtab },
        (addRule p.toPolicydb s t c perm action.effect.1 action.effect.2).2) := rfl
  cases found : ruleSymbols p.toPolicydb s t c perm with
  | error error =>
      rw [addRule_unresolved found] at ran
      exact ⟨_, 1, ran, Or.inl Nat.one_ne_zero⟩
  | ok symbols =>
      rw [addRule_eq_editKeys found] at ran
      refine ⟨_, 0, ran, Or.inr ⟨symbols.perm, fun noPerm => ?_, fun key => ?_⟩⟩
      · subst noPerm
        exact (Except.ok.inj (ruleSymbols_ok found).2.2.2).symm
      · have visits : key ∈ symbols.keys p.toPolicydb action.effect.1 ↔
            IsRuleKey p.toPolicydb s t c action.effect.1 key := mem_keys_iff found _ key
        dsimp only
        rw [data_editKeys, ← visits]
        exact ⟨fun visited => if_pos visited, fun unvisited => if_neg unvisited⟩

theorem expands_xperm (p : Policy) (stale : UInt16 × UInt16) (action : XpermAction)
    (s t c range : Option CString) :
    ∃ next result, execute ⟨.xperm action s t c range, stale⟩ p = some (next, result) ∧
      (result ≠ 0 ∨ Expands p stale (.xperm action s t c range) next) := by
  have ran : execute ⟨.xperm action s t c range, stale⟩ p =
      some ({ p with
        teAvtab := (addXpermRule stale s t c range action.effect false p.toPolicydb).1.teAvtab },
        (addXpermRule stale s t c range action.effect false p.toPolicydb).2) := rfl
  cases found : xpermSymbols p.toPolicydb s t c with
  | error error =>
      rw [addXpermRule_unresolved found] at ran
      exact ⟨_, 1, ran, Or.inl Nat.one_ne_zero⟩
  | ok symbols =>
      rw [addXpermRule_eq_editKeys found] at ran
      refine ⟨_, 0, ran, Or.inr ⟨_, _, fun noRange => ?_, rfl, fun key => ?_⟩⟩
      · subst noRange
        exact ⟨rfl, rfl⟩
      · have visits : key ∈ symbols.keys p.toPolicydb action.effect ↔
            IsRuleKey p.toPolicydb s t c action.effect key := by
          have keys := mem_xpermKeys p.toPolicydb s t c action.effect key
          simp only [xpermKeys, found] at keys
          exact keys
        dsimp only
        rw [data_editXpermKeys, ← visits]
        exact ⟨fun visited => if_pos visited, fun unvisited => if_neg unvisited⟩

theorem mem_foldl_setBit (types : List TypeSymbol) (state : Bool) (e : Ebitmap) (bit : Nat) :
    bit ∈ (types.foldl (fun e type => ebitmapSetBit e type.value state) e).bits ↔
      if ∃ type, type ∈ types ∧ type.value = bit then state = true else bit ∈ e.bits := by
  induction types generalizing e with
  | nil => simp
  | cons type rest induction =>
      rw [List.foldl_cons, induction, mem_ebitmapSetBit]
      by_cases here : type.value = bit
      · simp [here]
      · simp [here, Ne.symm here]

theorem expands_domainState (p : Policy) (stale : UInt16 × UInt16) {action : TypeAction}
    (notCreate : action ≠ .create) :
    ∃ next result, execute ⟨.typeState action none, stale⟩ p = some (next, result) ∧
      (result ≠ 0 ∨ Expands p stale (.typeState action none) next) := by
  cases action with
  | create => exact absurd rfl notCreate
  | permissive =>
      refine ⟨_, 0, rfl, Or.inr fun bit => ?_⟩
      rw [mem_foldl_setBit]
      simp [matched]
  | enforce =>
      refine ⟨_, 0, rfl, Or.inr fun bit => ?_⟩
      rw [mem_foldl_setBit]
      simp [matched]

theorem handlesAll_iff (invocation : Invocation) (p : Policy) :
    HandlesAll invocation p ↔ NamesGiven p invocation.call := by
  rcases invocation with ⟨call, stale⟩
  constructor
  · intro handles
    by_contra missing
    exact handles.noNull ((none_mem_searchedKeys p call).mpr missing)
  · intro given
    refine ⟨fun null => (none_mem_searchedKeys p call).mp null given, fun hasAll => ?_⟩
    cases call with
    | rule action s t c perm => exact expands_rule p stale action s t c perm
    | xperm action s t c range => exact expands_xperm p stale action s t c range
    | attradd s a =>
        cases s with
        | none => cases given
        | some s =>
            rcases hasAll with noType | noAttr
            · cases noType
            · have ran := addTypeattribute_missing (given noAttr) a
              exact ⟨p, 1, ran, Or.inl Nat.one_ne_zero⟩
    | typeState action s =>
        cases hasAll
        refine expands_domainState p stale fun isCreate => ?_
        subst isCreate
        exact given rfl
    | typetrans s t c d o => cases hasAll

/-! ## Statements -/

/-- The calls of the statements that were run; `stale` is what the uninitialised
variables of each call hold. -/
def statementCalls (stale : Nat → UInt16 × UInt16) (steps : List Step) : List Invocation :=
  (steps.flatMap fun step => (step.dispatched.map Dispatched.calls).getD []).zipIdx.map
    fun numbered => { call := numbered.1, stale := stale numbered.2 }

/-- Throughout the statements of a run `ALL` is handled exactly if every call gives the
names that are not tested. -/
theorem statements_handle_all_iff (p : Policy) (files : PolicyFiles) (argv : List CString)
    (beyond : List Byte) (stale : Nat → UInt16 × UInt16) :
    Along perform HandlesAll (statementCalls stale (magiskpolicyMain files argv beyond).steps) p ↔
      Along perform (fun invocation p => NamesGiven p invocation.call)
        (statementCalls stale (magiskpolicyMain files argv beyond).steps) p := by
  have sameCondition : HandlesAll = fun invocation p => NamesGiven p invocation.call := by
    funext invocation p
    exact propext (handlesAll_iff invocation p)
  rw [sameCondition]

/-- `create *` is accepted, and searches for a null pointer. -/
theorem create_all_searches_null :
    ¬Along perform HandlesAll
      (statementCalls (fun _ => (0, 0))
        (magiskpolicyMain { load := fun _ => true, dump := fun _ => true }
          [ascii "magiskpolicy", ascii "create *"] []).steps) (shellPolicy 30) := by
  have calls : statementCalls (fun _ => (0, 0))
      (magiskpolicyMain { load := fun _ => true, dump := fun _ => true }
        [ascii "magiskpolicy", ascii "create *"] []).steps =
      [⟨.typeState .create none, (0, 0)⟩] := by
    decide +kernel
  rw [calls]
  intro handles
  exact handles.1.noNull List.mem_cons_self

end SuBinary.Magiskpolicy
