import SuBinary.Magiskpolicy.OperationEffect
import SuBinary.Magiskpolicy.Rules

/-! # Wildcards

A statement with `*` against the statements that name every match. The wildcard
works on the data of the tables and on whole access vectors, a name goes through
the lookups.
-/

namespace SuBinary.Magiskpolicy

open SuBinary Sepol

/-! ## Permissions of a class -/

def classPerms (cls : ClassDatum) : List (CString × PermDatum) :=
  cls.permissions.entries ++ cls.comdatum.toList.flatMap fun common => common.permissions.entries

/-- The permissions of a class are different bits of an access vector. -/
structure PermsDistinct (db : Policydb) : Prop where
  fit : ∀ cls, cls ∈ db.pClasses.data → ∀ entry, entry ∈ classPerms cls →
    1 ≤ entry.2.value ∧ entry.2.value ≤ 32
  values : ∀ cls, cls ∈ db.pClasses.data →
    ((classPerms cls).map fun entry => entry.2.value).Nodup

/-- No class has a permission by the name of one of its common. -/
def PermNamesApart (db : Policydb) : Prop :=
  ∀ cls, cls ∈ db.pClasses.data → ((classPerms cls).map Prod.fst).Nodup

theorem NamedIn.mem_classPerms {cls : ClassDatum} {name : CString} {perm : PermDatum}
    (named : NamedIn cls name perm) : (name, perm) ∈ classPerms cls := by
  cases named with
  | own member => exact List.mem_append_left _ member
  | inherited notOwn common isCommon member =>
      apply List.mem_append_right
      exact List.mem_flatMap.mpr ⟨common, Option.mem_toList.mpr isCommon, member⟩

theorem namedIn_of_mem {cls : ClassDatum} (apart : ((classPerms cls).map Prod.fst).Nodup)
    {name : CString} {perm : PermDatum} (member : (name, perm) ∈ classPerms cls) :
    NamedIn cls name perm := by
  rcases List.mem_append.mp member with own | inCommon
  · exact .own own
  · rcases List.mem_flatMap.mp inCommon with ⟨common, isCommon, inherited⟩
    refine .inherited (fun own => ?_) common (Option.mem_toList.mp isCommon) inherited
    rw [classPerms, List.map_append] at apart
    exact (List.nodup_append.mp apart).2.2 name own name (List.mem_map_of_mem inCommon) rfl

/-! ## What a rule statement is about -/

/-- The permission of a statement is about bit `bit` of a class. -/
def PermTouches (cls : ClassDatum) (bit : Nat) : Option CString → Prop
  | none => True
  | some name => ∃ perm, NamedIn cls name perm ∧ perm.value = bit + 1

/-- The statement is about bit `bit` of the vector under `key`. -/
def Touches (db : Policydb) (s t c p : Option CString) (effect : AvtabSpecified)
    (key : AvtabKey) (bit : Nat) : Prop :=
  ∃ src, src ∈ matched db.pTypes s ∧ ∃ tgt, tgt ∈ matched db.pTypes t ∧
    ∃ cls, cls ∈ matched db.pClasses c ∧
      ruleKey src.value tgt.value cls.value effect = key ∧ PermTouches cls bit p

theorem lookupName_of_mem {table : Hashtab Datum} {name : Option CString} {datum : Datum}
    (member : datum ∈ matched table name) (missing : CString → RuleError) :
    ∃ found, lookupName table missing name = .ok found := by
  cases name with
  | none => exact ⟨none, rfl⟩
  | some name =>
      have searched : hashtabSearch table name = some datum := by simpa [matched] using member
      exact ⟨some datum, by simp [lookupName, searched]⟩

theorem matched_of_lookupName_error {table : Hashtab Datum} {missing : CString → RuleError}
    {name : Option CString} {error : RuleError}
    (looked : lookupName table missing name = .error error) : matched table name = [] := by
  apply List.eq_nil_iff_forall_not_mem.mpr
  intro datum member
  rcases lookupName_of_mem member missing with ⟨found, isFound⟩
  cases looked.symm.trans isFound

theorem mem_keys_iff {db : Policydb} {s t c p : Option CString} {symbols : RuleSymbols}
    (found : ruleSymbols db s t c p = .ok symbols) (effect : AvtabSpecified) (key : AvtabKey) :
    key ∈ symbols.keys db effect ↔
      ∃ src, src ∈ matched db.pTypes s ∧ ∃ tgt, tgt ∈ matched db.pTypes t ∧
        ∃ cls, cls ∈ matched db.pClasses c ∧
          ruleKey src.value tgt.value cls.value effect = key := by
  rcases ruleSymbols_ok found with ⟨srcFound, tgtFound, clsFound, -⟩
  simp only [RuleSymbols.keys, ruleKeys, List.mem_flatMap, List.mem_map,
    matched_of_lookupName srcFound, matched_of_lookupName tgtFound, matched_of_lookupName clsFound]

theorem affectsBit_iff {db : Policydb} {s t c p : Option CString} {symbols : RuleSymbols}
    (found : ruleSymbols db s t c p = .ok symbols) {cls : ClassDatum}
    (isClass : cls ∈ matched db.pClasses c) (bit : Nat) :
    AffectsBit symbols.perm bit ↔ PermTouches cls bit p := by
  rcases ruleSymbols_ok found with ⟨-, -, clsFound, permFound⟩
  cases named : symbols.perm with
  | none =>
      cases p with
      | none => simp [AffectsBit, PermTouches]
      | some name =>
          rw [named] at permFound
          cases c with
          | none => simp [lookupPerm] at permFound
          | some c =>
              cases isFound : symbols.cls with
              | none =>
                  rw [isFound, lookupName] at clsFound
                  split at clsFound <;> cases clsFound
              | some other =>
                  simp only [lookupPerm, isFound] at permFound
                  split at permFound <;> cases permFound
  | some perm =>
      rcases classPerm_of_perm found named with ⟨other, name, isFound, -, rfl, searched⟩
      rw [matched_of_lookupName clsFound, isFound] at isClass
      cases List.mem_singleton.mp isClass
      simp only [AffectsBit, PermTouches, ← classPerm_eq_some_iff, searched, Option.some.injEq,
        exists_eq_left', forall_eq']
      exact eq_comm

theorem ruleSymbols_of_touches {db : Policydb} {s t c p : Option CString}
    (classOrAll : c = none → p = none) {effect : AvtabSpecified} {key : AvtabKey} {bit : Nat}
    (touches : Touches db s t c p effect key bit) :
    ∃ symbols, ruleSymbols db s t c p = .ok symbols := by
  rcases touches with ⟨src, isSrc, tgt, isTgt, cls, isClass, -, isPerm⟩
  rcases lookupName_of_mem isSrc .sourceType with ⟨srcFound, srcLooked⟩
  rcases lookupName_of_mem isTgt .targetType with ⟨tgtFound, tgtLooked⟩
  rcases lookupName_of_mem isClass .cls with ⟨clsFound, clsLooked⟩
  have permLooked : ∃ permFound, lookupPerm c clsFound p = .ok permFound := by
    cases p with
    | none => exact ⟨none, rfl⟩
    | some name =>
        rcases isPerm with ⟨perm, searched, -⟩
        cases c with
        | none => cases classOrAll rfl
        | some c =>
            rw [matched_of_lookupName clsLooked] at isClass
            cases clsFound with
            | none => exact ⟨none, rfl⟩
            | some found =>
                cases List.mem_singleton.mp isClass
                exact ⟨some perm, by simp [lookupPerm, classPerm_eq_some_iff.mpr searched]⟩
  rcases permLooked with ⟨permFound, permLooked⟩
  refine ⟨{ src := srcFound, tgt := tgtFound, cls := clsFound, perm := permFound }, ?_⟩
  simp [ruleSymbols, srcLooked, tgtLooked, clsLooked, permLooked, bind, Except.bind, pure,
    Except.pure]

theorem addRule_bit_iff {db : Policydb} (distinct : PermsDistinct db) {s t c p : Option CString}
    (classOrAll : c = none → p = none) (effect : AvtabSpecified) (not : Bool) (key : AvtabKey)
    {bit : Nat} (inside : bit < 32) :
    (storedVector (addRule db s t c p effect not).1.teAvtab key).getLsbD bit = !not ↔
      (storedVector db.teAvtab key).getLsbD bit = !not ∨ Touches db s t c p effect key bit := by
  cases found : ruleSymbols db s t c p with
  | error error =>
      have untouched : ¬Touches db s t c p effect key bit := by
        intro touches
        rcases ruleSymbols_of_touches classOrAll touches with ⟨symbols, resolved⟩
        rw [found] at resolved
        cases resolved
      rw [addRule_unresolved found]
      exact (or_iff_left untouched).symm
  | ok symbols =>
      have fits : ∀ named, symbols.perm = some named → 1 ≤ named.value ∧ named.value ≤ 32 := by
        intro named isNamed
        rcases classPerm_of_perm found isNamed with ⟨cls, name, -, isClass, -, searched⟩
        exact distinct.fit cls isClass _ (classPerm_eq_some_iff.mp searched).mem_classPerms
      have edited := editVector_bit symbols.perm not (storedVector db.teAvtab key) fits bit inside
      have touchesIff : Touches db s t c p effect key bit ↔
          key ∈ symbols.keys db effect ∧ AffectsBit symbols.perm bit := by
        rw [mem_keys_iff found]
        constructor
        · rintro ⟨src, isSrc, tgt, isTgt, cls, isClass, isKey, touches⟩
          exact ⟨⟨src, isSrc, tgt, isTgt, cls, isClass, isKey⟩,
            (affectsBit_iff found isClass bit).mpr touches⟩
        · rintro ⟨⟨src, isSrc, tgt, isTgt, cls, isClass, isKey⟩, affects⟩
          exact ⟨src, isSrc, tgt, isTgt, cls, isClass, isKey,
            (affectsBit_iff found isClass bit).mp affects⟩
      rw [addRule_eq_editKeys found, storedVector_editKeys, touchesIff]
      by_cases visited : key ∈ symbols.keys db effect
      · by_cases affects : AffectsBit symbols.perm bit
        · simp [visited, affects, edited.1 affects]
        · simp [visited, affects, edited.2 affects]
      · simp [visited]

/-! ## Statements that name every match -/

/-- What a name of a statement can be replaced by: a wildcard by every name of
the table. -/
def Replaces (table : Hashtab Datum) (name : CString) : Option CString → Prop
  | none => name ∈ table.entries.map Prod.fst
  | some given => name = given

instance (table : Hashtab Datum) (name : CString) :
    (given : Option CString) → Decidable (Replaces table name given)
  | none => inferInstanceAs (Decidable (name ∈ table.entries.map Prod.fst))
  | some given => inferInstanceAs (Decidable (name = given))

def ReplacesPerm (db : Policydb) (c name : CString) : Option CString → Prop
  | none => ∃ cls, hashtabSearch db.pClasses c = some cls ∧ name ∈ (classPerms cls).map Prod.fst
  | some given => name = given

/-- The second statement is the first one with each wildcard replaced by a
name. -/
inductive ExpandsTo (db : Policydb) : PolicyCall → PolicyCall → Prop
  | rule (action : RuleAction) {s t c p : Option CString} {src tgt cls perm : CString}
      (source : Replaces db.pTypes src s) (target : Replaces db.pTypes tgt t)
      (targetClass : Replaces db.pClasses cls c) (permission : ReplacesPerm db cls perm p) :
      ExpandsTo db (.rule action s t c p)
        (.rule action (some src) (some tgt) (some cls) (some perm))
  | xperm (action : XpermAction) {s t c : Option CString} {src tgt cls : CString}
      (range : Option CString) (source : Replaces db.pTypes src s)
      (target : Replaces db.pTypes tgt t) (targetClass : Replaces db.pClasses cls c) :
      ExpandsTo db (.xperm action s t c range)
        (.xperm action (some src) (some tgt) (some cls) range)

/-- A wildcard class takes a wildcard permission; statements of other kinds are
not considered. -/
def TakesWildcards : PolicyCall → Prop
  | .rule _ _ _ c p => c = none → p = none
  | .xperm _ _ _ _ _ => True
  | _ => False

def Invocation.range (invocation : Invocation) : UInt16 × UInt16 :=
  match invocation.call with
  | .xperm _ _ _ _ range => scanRange invocation.stale range
  | _ => (0, 0)

/-- The tables agree where a statement defines a meaning: a rule on every
permission of its classes, and on all data of other keys; an extended rule on
all data. -/
def AgreeOn (db : Policydb) (call : PolicyCall) (first second : Avtab) : Prop :=
  match call with
  | .rule action _ _ c _ =>
      (∀ key cls entry, cls ∈ matched db.pClasses c →
        UInt16.ofNat cls.value = key.targetClass → entry ∈ classPerms cls →
        (storedVector first key).getLsbD (entry.2.value - 1) =
          (storedVector second key).getLsbD (entry.2.value - 1)) ∧
      ∀ key, (key.specified = action.effect.1 → ∀ cls, cls ∈ matched db.pClasses c →
        UInt16.ofNat cls.value ≠ key.targetClass) → first.data key = second.data key
  | _ => ∀ key, first.data key = second.data key

theorem mem_matched_iff (table : Hashtab Datum) (given : Option CString) (datum : Datum) :
    datum ∈ matched table given ↔
      ∃ name, Replaces table name given ∧ datum ∈ matched table (some name) := by
  cases given with
  | some given => simp [Replaces]
  | none =>
      simp only [matched, Hashtab.data, List.mem_map, Prod.exists, exists_eq_right, Replaces,
        Option.mem_toList, hashtabSearch_eq_some_iff, exists_and_right]
      constructor
      · rintro ⟨name, member⟩
        exact ⟨name, ⟨datum, member⟩, member⟩
      · rintro ⟨name, -, member⟩
        exact ⟨name, member⟩

/-- A statement is about the bits of the statements it expands to, as far as
these bits are permissions. -/
theorem touches_iff_expansion {db : Policydb} (apart : PermNamesApart db)
    {s t c p : Option CString} (action : RuleAction) {key : AvtabKey}
    {cls : ClassDatum} {entry : CString × PermDatum}
    (isClass : cls ∈ matched db.pClasses c) (sameClass : UInt16.ofNat cls.value = key.targetClass)
    (isPerm : entry ∈ classPerms cls) (positive : 1 ≤ entry.2.value) :
    Touches db s t c p action.effect.1 key (entry.2.value - 1) ↔
      ∃ src tgt cls perm, ExpandsTo db (.rule action s t c p)
        (.rule action (some src) (some tgt) (some cls) (some perm)) ∧
        Touches db (some src) (some tgt) (some cls) (some perm) action.effect.1 key
          (entry.2.value - 1) := by
  constructor
  · rintro ⟨src, isSrc, tgt, isTgt, other, isOther, rfl, touches⟩
    rcases (mem_matched_iff _ s src).mp isSrc with ⟨srcName, srcReplaces, srcNamed⟩
    rcases (mem_matched_iff _ t tgt).mp isTgt with ⟨tgtName, tgtReplaces, tgtNamed⟩
    cases p with
    | some name =>
        rcases (mem_matched_iff _ c other).mp isOther with ⟨clsName, clsReplaces, clsNamed⟩
        exact ⟨srcName, tgtName, clsName, name, ExpandsTo.rule action srcReplaces tgtReplaces
          clsReplaces rfl, src, srcNamed, tgt, tgtNamed, other, clsNamed, rfl, touches⟩
    | none =>
        -- the class whose permission the bit is, which may be another one of this value
        rcases (mem_matched_iff _ c cls).mp isClass with ⟨clsName, clsReplaces, clsNamed⟩
        have searched : hashtabSearch db.pClasses clsName = some cls := by
          simpa [matched] using clsNamed
        have looked := namedIn_of_mem (apart cls (mem_of_mem_matched isClass)) isPerm
        refine ⟨srcName, tgtName, clsName, entry.1, ExpandsTo.rule action srcReplaces tgtReplaces
          clsReplaces ⟨cls, searched, List.mem_map_of_mem isPerm⟩, src, srcNamed, tgt, tgtNamed,
          cls, clsNamed, ?_, entry.2, looked, by omega⟩
        rw [ruleKey, sameClass]
        rfl
  · rintro ⟨srcName, tgtName, clsName, name, expands, src, srcNamed, tgt, tgtNamed, other,
      clsNamed, isKey, touches⟩
    cases expands with
    | rule _ source target targetClass permission =>
        refine ⟨src, (mem_matched_iff _ s src).mpr ⟨srcName, source, srcNamed⟩, tgt,
          (mem_matched_iff _ t tgt).mpr ⟨tgtName, target, tgtNamed⟩, other,
          (mem_matched_iff _ c other).mpr ⟨clsName, targetClass, clsNamed⟩, isKey, ?_⟩
        cases p with
        | none => trivial
        | some given =>
            cases permission
            exact touches

/-! ## Runs -/

def tableAfter (db : Policydb) (invocation : Invocation) (h : Avtab) : Avtab :=
  match invocation.call with
  | .rule action s t c perm =>
      (addRule { db with teAvtab := h } s t c perm action.effect.1 action.effect.2).1.teAvtab
  | .xperm action s t c range =>
      (addXpermRule invocation.stale s t c range action.effect false
        { db with teAvtab := h }).1.teAvtab
  | _ => h

theorem runCalls_tableAfter (p : Policy) (calls : List Invocation)
    (onlyRules : ∀ invocation, invocation ∈ calls → TakesWildcards invocation.call)
    (teAvtab : Avtab) :
    runCalls calls { p with teAvtab } =
      some { p with
        teAvtab := calls.foldl (fun h invocation => tableAfter p.toPolicydb invocation h)
          teAvtab } := by
  induction calls generalizing teAvtab with
  | nil => rfl
  | cons first rest induction =>
      have performed : perform first { p with teAvtab } =
          some { p with teAvtab := tableAfter p.toPolicydb first teAvtab } := by
        have isRule := onlyRules first List.mem_cons_self
        rcases first with ⟨call, stale⟩
        cases call with
        | rule action s t c perm => rfl
        | xperm action s t c range => rfl
        | attradd s a => cases isRule
        | typeState action s => cases isRule
        | typetrans s t c d o => cases isRule
      have later := induction (fun invocation member =>
        onlyRules invocation (List.mem_cons_of_mem first member))
        (tableAfter p.toPolicydb first teAvtab)
      exact (runSteps_cons first rest _ _).mpr ⟨_, performed, later⟩

theorem takesWildcards_of_expandsTo {db : Policydb} {call expanded : PolicyCall}
    (expands : ExpandsTo db call expanded) : TakesWildcards expanded := by
  cases expands with
  | rule action source target targetClass permission => exact fun noClass => nomatch noClass
  | xperm action range source target targetClass => trivial

theorem data_addRule_of_other {db : Policydb} {s t c p : Option CString}
    {effect : AvtabSpecified} (not : Bool) {key : AvtabKey}
    (other : key.specified = effect → ∀ cls, cls ∈ matched db.pClasses c →
      UInt16.ofNat cls.value ≠ key.targetClass) :
    (addRule db s t c p effect not).1.teAvtab.data key = db.teAvtab.data key := by
  cases found : ruleSymbols db s t c p with
  | error error => rw [addRule_unresolved found]
  | ok symbols =>
      have unvisited : key ∉ symbols.keys db effect := by
        intro visited
        rcases (mem_keys_iff found effect key).mp visited with
          ⟨src, -, tgt, -, cls, isClass, rfl⟩
        exact other rfl cls isClass rfl
      rw [addRule_eq_editKeys found, data_editKeys, if_neg unvisited]

section Rule

variable {db : Policydb} {action : RuleAction} {s t c p : Option CString}
  {calls : List Invocation}
  (expansions : ∀ call, call ∈ calls.map Invocation.call ↔
    ExpandsTo db (.rule action s t c p) call)

include expansions

theorem named_of_mem {invocation : Invocation} (member : invocation ∈ calls) :
    ∃ src tgt cls perm, Replaces db.pClasses cls c ∧
      invocation.call = .rule action (some src) (some tgt) (some cls) (some perm) := by
  have expands := (expansions invocation.call).mp (List.mem_map_of_mem member)
  generalize invocation.call = call at expands ⊢
  cases expands with
  | rule _ source target targetClass permission => exact ⟨_, _, _, _, targetClass, rfl⟩

theorem data_named_of_other {key : AvtabKey}
    (other : key.specified = action.effect.1 → ∀ cls, cls ∈ matched db.pClasses c →
      UInt16.ofNat cls.value ≠ key.targetClass) (h : Avtab) :
    (calls.foldl (fun h invocation => tableAfter db invocation h) h).data key = h.data key := by
  refine foldl_keeps (fun h : Avtab => h.data key) calls (fun h invocation member => ?_) h
  rcases named_of_mem expansions member with ⟨src, tgt, cls, perm, replaces, isCall⟩
  simp only [tableAfter, isCall]
  apply data_addRule_of_other
  intro sameKind datum isClass
  exact other sameKind datum ((mem_matched_iff _ c datum).mpr ⟨cls, replaces, isClass⟩)

theorem named_bit_iff (distinct : PermsDistinct db) {bit : Nat} (inside : bit < 32)
    (key : AvtabKey) (h : Avtab) :
    (storedVector (calls.foldl (fun h invocation => tableAfter db invocation h) h) key).getLsbD
        bit = !action.effect.2 ↔
      (storedVector h key).getLsbD bit = !action.effect.2 ∨
        ∃ src tgt cls perm, ExpandsTo db (.rule action s t c p)
          (.rule action (some src) (some tgt) (some cls) (some perm)) ∧
          Touches db (some src) (some tgt) (some cls) (some perm) action.effect.1 key bit := by
  let Adds := fun invocation : Invocation => ∃ src tgt cls perm,
    invocation.call = .rule action (some src) (some tgt) (some cls) (some perm) ∧
      Touches db (some src) (some tgt) (some cls) (some perm) action.effect.1 key bit
  have steps : ∀ (h : Avtab) invocation, invocation ∈ calls →
      ((storedVector (tableAfter db invocation h) key).getLsbD bit = !action.effect.2 ↔
        (storedVector h key).getLsbD bit = !action.effect.2 ∨ Adds invocation) := by
    intro h invocation member
    rcases named_of_mem expansions member with ⟨src, tgt, cls, perm, -, isCall⟩
    have distinctHere : PermsDistinct { db with teAvtab := h } := ⟨distinct.fit, distinct.values⟩
    have edited := addRule_bit_iff distinctHere (s := some src) (t := some tgt) (c := some cls)
      (p := some perm) (fun noClass => nomatch noClass) action.effect.1 action.effect.2 key inside
    simp only [tableAfter, isCall]
    refine edited.trans (or_congr_right ?_)
    constructor
    · intro touches
      exact ⟨src, tgt, cls, perm, isCall, touches⟩
    · rintro ⟨src', tgt', cls', perm', sameCall, touches⟩
      cases isCall.symm.trans sameCall
      exact touches
  refine (foldl_iff_exists (fun h => (storedVector h key).getLsbD bit = !action.effect.2) calls
    steps h).trans (or_congr_right ?_)
  constructor
  · rintro ⟨invocation, member, src, tgt, cls, perm, isCall, touches⟩
    refine ⟨src, tgt, cls, perm, ?_, touches⟩
    rw [← expansions, ← isCall]
    exact List.mem_map_of_mem member
  · rintro ⟨src, tgt, cls, perm, expands, touches⟩
    rcases List.mem_map.mp ((expansions _).mpr expands) with ⟨invocation, member, isCall⟩
    exact ⟨invocation, member, src, tgt, cls, perm, isCall, touches⟩

theorem agreeOn_rule (distinct : PermsDistinct db) (apart : PermNamesApart db)
    (classOrAll : c = none → p = none) :
    AgreeOn db (.rule action s t c p)
      (addRule db s t c p action.effect.1 action.effect.2).1.teAvtab
      (calls.foldl (fun h invocation => tableAfter db invocation h) db.teAvtab) := by
  constructor
  · intro key cls entry isClass sameClass isPerm
    have fits := distinct.fit cls (mem_of_mem_matched isClass) entry isPerm
    have inside : entry.2.value - 1 < 32 := by omega
    have wild := addRule_bit_iff distinct classOrAll action.effect.1 action.effect.2 key inside
      (s := s) (t := t)
    rw [touches_iff_expansion apart action isClass sameClass isPerm fits.1,
      ← named_bit_iff expansions distinct inside] at wild
    have cancel : ∀ first second taken : Bool, (first = !taken ↔ second = !taken) →
        first = second := by decide
    exact cancel _ _ _ wild
  · intro key other
    rw [data_addRule_of_other _ other, data_named_of_other expansions other]

end Rule

/-! ## Extended permissions -/

def xpermKeys (db : Policydb) (s t c : Option CString) (effect : AvtabSpecified) :
    List AvtabKey :=
  match xpermSymbols db s t c with
  | .error _ => []
  | .ok symbols => symbols.keys db effect

theorem mem_xpermKeys (db : Policydb) (s t c : Option CString) (effect : AvtabSpecified)
    (key : AvtabKey) :
    key ∈ xpermKeys db s t c effect ↔
      ∃ src, src ∈ matched db.pTypes s ∧ ∃ tgt, tgt ∈ matched db.pTypes t ∧
        ∃ cls, cls ∈ matched db.pClasses c ∧
          ruleKey src.value tgt.value cls.value effect = key := by
  cases srcLooked : lookupName db.pTypes .sourceType s with
  | error error =>
      simp [xpermKeys, xpermSymbols, srcLooked, bind, Except.bind,
        matched_of_lookupName_error srcLooked]
  | ok src =>
      cases tgtLooked : lookupName db.pTypes .targetType t with
      | error error =>
          simp [xpermKeys, xpermSymbols, srcLooked, tgtLooked, bind, Except.bind,
            matched_of_lookupName_error tgtLooked]
      | ok tgt =>
          cases clsLooked : lookupName db.pClasses .cls c with
          | error error =>
              simp [xpermKeys, xpermSymbols, srcLooked, tgtLooked, clsLooked, bind, Except.bind,
                matched_of_lookupName_error clsLooked]
          | ok cls =>
              simp [xpermKeys, xpermSymbols, srcLooked, tgtLooked, clsLooked, bind, Except.bind,
                pure, Except.pure, XpermSymbols.keys, ruleKeys, matched_of_lookupName srcLooked,
                matched_of_lookupName tgtLooked, matched_of_lookupName clsLooked]

theorem teAvtab_addXpermRule (db : Policydb) (s t c range : Option CString)
    (stale : UInt16 × UInt16) (effect : AvtabSpecified) :
    (addXpermRule stale s t c range effect false db).1.teAvtab =
      editKeys
        { data := 0
          xperms := newXperms (scanRange stale range).1 (scanRange stale range).2 }
        (editXpermDatum (scanRange stale range).1 (scanRange stale range).2 false)
        (xpermKeys db s t c effect) db.teAvtab := by
  cases found : xpermSymbols db s t c with
  | error error =>
      rw [addXpermRule_unresolved found, xpermKeys, found]
      rfl
  | ok symbols => rw [addXpermRule_eq_editKeys found, xpermKeys, found]

section Xperm

variable {db : Policydb} {action : XpermAction} {s t c range : Option CString}
  {stale : UInt16 × UInt16} {calls : List Invocation}
  (expansions : ∀ call, call ∈ calls.map Invocation.call ↔
    ExpandsTo db (.xperm action s t c range) call)
  (sameRange : ∀ invocation, invocation ∈ calls →
    invocation.range = scanRange stale range)

include expansions sameRange

theorem foldl_named_xperm (h : Avtab) :
    calls.foldl (fun h invocation => tableAfter db invocation h) h =
      editKeys
        { data := 0
          xperms := newXperms (scanRange stale range).1 (scanRange stale range).2 }
        (editXpermDatum (scanRange stale range).1 (scanRange stale range).2 false)
        (calls.flatMap fun invocation =>
          match invocation.call with
          | .xperm action s t c _ => xpermKeys db s t c action.effect
          | _ => []) h := by
  rw [editKeys, List.foldl_flatMap]
  apply List.foldl_ext
  intro h invocation member
  have expands := (expansions invocation.call).mp (List.mem_map_of_mem member)
  have scanned := sameRange invocation member
  rcases invocation with ⟨call, staleHere⟩
  cases expands with
  | xperm _ _ source target targetClass =>
      simp only [tableAfter, teAvtab_addXpermRule]
      rw [← scanned]
      rfl

theorem agreeOn_xperm :
    AgreeOn db (.xperm action s t c range)
      (addXpermRule stale s t c range action.effect false db).1.teAvtab
      (calls.foldl (fun h invocation => tableAfter db invocation h) db.teAvtab) := by
  intro key
  rw [teAvtab_addXpermRule, foldl_named_xperm expansions sameRange, data_editXpermKeys,
    data_editXpermKeys]
  refine if_congr ?_ rfl rfl
  rw [mem_xpermKeys, List.mem_flatMap]
  constructor
  · rintro ⟨src, isSrc, tgt, isTgt, cls, isClass, isKey⟩
    rcases (mem_matched_iff _ s src).mp isSrc with ⟨srcName, srcReplaces, srcNamed⟩
    rcases (mem_matched_iff _ t tgt).mp isTgt with ⟨tgtName, tgtReplaces, tgtNamed⟩
    rcases (mem_matched_iff _ c cls).mp isClass with ⟨clsName, clsReplaces, clsNamed⟩
    have expands := ExpandsTo.xperm action range srcReplaces tgtReplaces clsReplaces
    rcases List.mem_map.mp ((expansions _).mpr expands) with ⟨invocation, member, isCall⟩
    refine ⟨invocation, member, ?_⟩
    rw [isCall, mem_xpermKeys]
    exact ⟨src, srcNamed, tgt, tgtNamed, cls, clsNamed, isKey⟩
  · rintro ⟨invocation, member, visited⟩
    have expands := (expansions invocation.call).mp (List.mem_map_of_mem member)
    generalize invocation.call = call at expands visited
    cases expands with
    | xperm _ _ source target targetClass =>
        rcases (mem_xpermKeys _ _ _ _ _ _).mp visited with
          ⟨src, srcNamed, tgt, tgtNamed, cls, clsNamed, isKey⟩
        exact ⟨src, (mem_matched_iff _ s src).mpr ⟨_, source, srcNamed⟩, tgt,
          (mem_matched_iff _ t tgt).mpr ⟨_, target, tgtNamed⟩, cls,
          (mem_matched_iff _ c cls).mpr ⟨_, targetClass, clsNamed⟩, isKey⟩

end Xperm

/-! ## The statements -/

/-- A statement with wildcards does what the statements that name every match
do, in any order, provided that no class has a permission by the name of one of
its common and that all statements read the same range. -/
theorem wildcards_mean_every_match (p : Policy) (distinct : PermsDistinct p.toPolicydb)
    (apart : PermNamesApart p.toPolicydb) (statement : Invocation)
    (takesWildcards : TakesWildcards statement.call) (calls : List Invocation)
    (expansions : ∀ call, call ∈ calls.map Invocation.call ↔
      ExpandsTo p.toPolicydb statement.call call)
    (sameRange : ∀ invocation, invocation ∈ calls → invocation.range = statement.range) :
    ∃ wild named, perform statement p = some { p with teAvtab := wild } ∧
      runCalls calls p = some { p with teAvtab := named } ∧
      AgreeOn p.toPolicydb statement.call wild named := by
  have onlyRules : ∀ invocation, invocation ∈ calls → TakesWildcards invocation.call :=
    fun invocation member =>
      takesWildcards_of_expandsTo ((expansions _).mp (List.mem_map_of_mem member))
  have ran := runCalls_tableAfter p calls onlyRules p.teAvtab
  rcases statement with ⟨call, stale⟩
  cases call with
  | rule action s t c perm =>
      exact ⟨_, _, rfl, ran, agreeOn_rule expansions distinct apart takesWildcards⟩
  | xperm action s t c range =>
      exact ⟨_, _, rfl, ran, agreeOn_xperm expansions sameRange⟩
  | attradd s a => cases takesWildcards
  | typeState action s => cases takesWildcards
  | typetrans s t c d o => cases takesWildcards

theorem permsDistinct_shellPolicy : PermsDistinct (shellPolicy 30).toPolicydb where
  fit := by decide
  values := by decide

/-- `allow shell * file *` against the two statements that it stands for. -/
theorem allow_shell_every_match :
    ∃ wild named,
      perform ⟨.rule .allow (some (ascii "shell")) none (some (ascii "file")) none, (0, 0)⟩
          (shellPolicy 30) = some { shellPolicy 30 with teAvtab := wild } ∧
      runCalls [⟨allow "shell" "domain" "file" (some "read"), (0, 0)⟩,
          ⟨allow "shell" "shell" "file" (some "read"), (0, 0)⟩] (shellPolicy 30) =
        some { shellPolicy 30 with teAvtab := named } ∧
      AgreeOn (shellPolicy 30).toPolicydb
        (.rule .allow (some (ascii "shell")) none (some (ascii "file")) none) wild named := by
  apply wildcards_mean_every_match (shellPolicy 30) permsDistinct_shellPolicy
    (by unfold PermNamesApart; decide)
    ⟨.rule .allow (some (ascii "shell")) none (some (ascii "file")) none, (0, 0)⟩
    (fun noClass => nomatch noClass)
  · intro call
    constructor
    · intro member
      rcases List.mem_cons.mp member with rfl | later
      · exact ExpandsTo.rule .allow rfl (by decide) rfl ⟨_, rfl, by decide⟩
      · cases List.mem_singleton.mp later
        exact ExpandsTo.rule .allow rfl (by decide) rfl ⟨_, rfl, by decide⟩
    · intro expands
      cases expands with
      | @rule _ _ _ _ _ _ tgt _ perm source target targetClass permission =>
          cases source
          cases targetClass
          rcases permission with ⟨cls, searched, isPerm⟩
          cases searched
          have isRead : perm ∈ [ascii "read"] := isPerm
          cases List.mem_singleton.mp isRead
          have isType : tgt ∈ [ascii "shell", ascii "domain"] := target
          rcases List.mem_cons.mp isType with rfl | later
          · exact List.mem_cons_of_mem _ List.mem_cons_self
          · cases List.mem_singleton.mp later
            exact List.mem_cons_self
  · decide

/-- A class with a permission `read` of its own and another one from its
common. -/
def shadowPolicy : Policy :=
  { shellPolicy 30 with
    pClasses :=
      { table := Hashtab.single (ascii "file")
          { value := 1
            permissions := Hashtab.single (ascii "read") { value := 1 }
            comdatum := some { permissions := Hashtab.single (ascii "read") { value := 2 } }
            constraints := []
            validatetrans := [] }
        nprim := 1 } }

/-- The wildcard in `allow shell domain file *` reaches the permission that no
name reaches. In `allowxperm shell domain * x` nothing is read from the range, and
the statements work on what their variables happen to hold. -/
theorem wildcard_beyond_names :
    (PermsDistinct shadowPolicy.toPolicydb ∧
      (∀ call, call ∈ [allow "shell" "domain" "file" (some "read")] ↔
        ExpandsTo shadowPolicy.toPolicydb (allow "shell" "domain" "file" none) call) ∧
      ∃ wild named,
        perform ⟨allow "shell" "domain" "file" none, (0, 0)⟩ shadowPolicy =
          some { shadowPolicy with teAvtab := wild } ∧
        runCalls [⟨allow "shell" "domain" "file" (some "read"), (0, 0)⟩] shadowPolicy =
          some { shadowPolicy with teAvtab := named } ∧
        ¬AgreeOn shadowPolicy.toPolicydb (allow "shell" "domain" "file" none) wild named) ∧
    PermsDistinct (shellPolicy 30).toPolicydb ∧
      (∀ call, call ∈ [allowxperm "shell" "domain" "file" "x"] ↔
        ExpandsTo (shellPolicy 30).toPolicydb
          (.xperm .allowxperm (some (ascii "shell")) (some (ascii "domain")) none
            (some (ascii "x"))) call) ∧
      ∃ wild named,
        perform ⟨.xperm .allowxperm (some (ascii "shell")) (some (ascii "domain")) none
            (some (ascii "x")), (1, 1)⟩ (shellPolicy 30) =
          some { shellPolicy 30 with teAvtab := wild } ∧
        runCalls [⟨allowxperm "shell" "domain" "file" "x", (2, 2)⟩] (shellPolicy 30) =
          some { shellPolicy 30 with teAvtab := named } ∧
        ¬AgreeOn (shellPolicy 30).toPolicydb
          (.xperm .allowxperm (some (ascii "shell")) (some (ascii "domain")) none
            (some (ascii "x"))) wild named := by
  refine ⟨⟨⟨by decide, by decide⟩, ?_, _, _, rfl, rfl, ?_⟩, permsDistinct_shellPolicy, ?_, _, _,
    rfl, rfl, ?_⟩
  · intro call
    constructor
    · intro member
      cases List.mem_singleton.mp member
      exact ExpandsTo.rule .allow rfl rfl rfl ⟨_, rfl, by decide⟩
    · intro expands
      cases expands with
      | @rule _ _ _ _ _ _ _ _ perm source target targetClass permission =>
          cases source
          cases target
          cases targetClass
          rcases permission with ⟨cls, searched, isPerm⟩
          cases searched
          have isRead : perm ∈ [ascii "read", ascii "read"] := isPerm
          have same : perm = ascii "read" := by simpa using isRead
          rw [same]
          exact List.mem_singleton.mpr rfl
  · intro agrees
    have bit := agrees.1 (ruleKey 1 2 1 .allowed) _ (ascii "read", { value := 2 })
      (List.mem_singleton.mpr rfl) rfl (by decide)
    exact absurd bit (by decide +kernel)
  · intro call
    constructor
    · intro member
      cases List.mem_singleton.mp member
      exact ExpandsTo.xperm .allowxperm _ rfl rfl (by decide)
    · intro expands
      cases expands with
      | @xperm _ _ _ _ _ _ cls _ source target targetClass =>
          cases source
          cases target
          have isFile : cls ∈ [ascii "file"] := targetClass
          cases List.mem_singleton.mp isFile
          exact List.mem_singleton.mpr rfl
  · intro agrees
    exact absurd (agrees (ruleKey 1 2 1 .xpermsAllowed)) (by decide +kernel)

end SuBinary.Magiskpolicy
