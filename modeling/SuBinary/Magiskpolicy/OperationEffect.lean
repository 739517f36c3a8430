import SuBinary.Magiskpolicy.Operations
import SuBinary.Magiskpolicy.XpermEffect

/-! # What an operation can do

Inversion lemmas for the operations.
-/

namespace SuBinary.Magiskpolicy

open SuBinary Sepol

/-! ## Attributes -/

def attrValue (p : Policy) (name : CString) : Option Nat :=
  match hashtabSearch p.pTypes.table name with
  | none => none
  | some attr => if attr.flavor ≠ .attrib then none else some attr.value

theorem getAttrId_eq (p : Policy) (name : CString) :
    getAttrId p name = (attrValue p name).getD 1 := by
  unfold getAttrId attrValue
  cases hashtabSearch p.pTypes.table name with
  | none => rfl
  | some attr =>
      dsimp only
      split <;> rfl

theorem setAttr_eq (p : Policy) (name : CString) (value : Nat) :
    setAttr p name value =
      match attrValue p name with
      | none => (p, 1)
      | some attr =>
          ({ p with
              typeAttrMap := setRowBit p.typeAttrMap (value - 1) (attr - 1)
              attrTypeMap := setRowBit p.attrTypeMap (attr - 1) (value - 1) }, 0) := by
  unfold setAttr attrValue
  cases hashtabSearch p.pTypes.table name with
  | none => rfl
  | some attr =>
      dsimp only
      split <;> rfl

/-- The attribute maps as far as their bits: the other fields and the numbers of
rows are the same. -/
structure ChangesMaps (p next : Policy) : Prop where
  others : next =
    { p with
      typeAttrMap := next.typeAttrMap
      attrTypeMap := next.attrTypeMap }
  typeRows : next.typeAttrMap.length = p.typeAttrMap.length
  attrRows : next.attrTypeMap.length = p.attrTypeMap.length

theorem ChangesMaps.teAvtab_eq {p next : Policy} (changes : ChangesMaps p next) :
    next.teAvtab = p.teAvtab := by
  rw [changes.others]

theorem ChangesMaps.policyvers_eq {p next : Policy} (changes : ChangesMaps p next) :
    next.policyvers = p.policyvers := by
  rw [changes.others]

theorem changesMaps_setAttr (p : Policy) (name : CString) (value : Nat) :
    ChangesMaps p (setAttr p name value).1 := by
  rw [setAttr_eq]
  cases attrValue p name with
  | none => exact ⟨rfl, rfl, rfl⟩
  | some attr => exact ⟨rfl, length_setRowBit _ _ _, length_setRowBit _ _ _⟩

theorem addTypeattribute_found {p : Policy} {domainS : CString} {domain : TypeSymbol}
    (found : hashtabSearch p.pTypes.table domainS = some domain) (attr : CString) :
    addTypeattribute p (some domainS) (some attr) =
      (modifyPointed p.classValToStruct p.pClasses.nprim
        (updateConstraints (getAttrId p attr - 1) (domain.value - 1)) p.pClasses.table).map
        fun table =>
          ({ (setAttr p attr domain.value).1 with
              pClasses := { p.pClasses with table } }, 0) := by
  have maps := (changesMaps_setAttr p attr domain.value).others
  have sameId : getAttrId (setAttr p attr domain.value).1 attr = getAttrId p attr := by
    rw [maps]
    rfl
  simp only [addTypeattribute, findSymbol, found, Option.bind_eq_bind, Option.bind_some,
    Option.pure_def, sameId]
  rw [maps]
  dsimp only
  cases modifyPointed p.classValToStruct p.pClasses.nprim
      (updateConstraints (getAttrId p attr - 1) (domain.value - 1)) p.pClasses.table with
  | none => rfl
  | some table => rfl

theorem addTypeattribute_missing {p : Policy} {domainS : CString}
    (missing : hashtabSearch p.pTypes.table domainS = none) (attr : Option CString) :
    addTypeattribute p (some domainS) attr = some (p, 1) := by
  simp [addTypeattribute, findSymbol, missing]

theorem updateExpr_idempotent (attrBit bit : Nat) (e : ConstraintExpr) :
    updateExpr attrBit bit (updateExpr attrBit bit e) = updateExpr attrBit bit e := by
  have absorbed : ebitmapSetBit (ebitmapSetBit e.names bit true) bit true =
      ebitmapSetBit e.names bit true := by
    apply Ebitmap.ext_mem
    intro other
    simp
  unfold updateExpr
  by_cases named : e.exprType = .names ∧ ebitmapGetBit e.typeNames attrBit = true
  · simp [named, absorbed]
  · simp [named]

theorem updateConstraints_idempotent (attrBit bit : Nat) (cls : ClassSymbol) :
    updateConstraints attrBit bit (updateConstraints attrBit bit cls) =
      updateConstraints attrBit bit cls := by
  simp [updateConstraints, updateExpr_idempotent]

theorem addTypeattribute_cases {p : Policy} {s a : Option CString} {next : Policy} {result : Nat}
    (ran : addTypeattribute p s a = some (next, result)) :
    (next = p ∧ result = 1) ∨
      ∃ domainS attr domain table, s = some domainS ∧ a = some attr ∧
        hashtabSearch p.pTypes.table domainS = some domain ∧
        next =
          { (setAttr p attr domain.value).1 with
            pClasses := { p.pClasses with table } } ∧ result = 0 := by
  cases s with
  | none => simp [addTypeattribute] at ran
  | some domainS =>
      cases found : hashtabSearch p.pTypes.table domainS with
      | none =>
          rw [addTypeattribute_missing found] at ran
          cases ran
          exact Or.inl ⟨rfl, rfl⟩
      | some domain =>
          cases a with
          | none => simp [addTypeattribute, findSymbol, found] at ran
          | some attr =>
              rw [addTypeattribute_found found] at ran
              rcases Option.map_eq_some_iff.mp ran with ⟨table, -, changed⟩
              cases changed
              exact Or.inr ⟨domainS, attr, domain, table, rfl, rfl, found, rfl, rfl⟩

/-! ## New types -/

def newType (p : Policy) : TypeSymbol where
  value := p.pTypes.nprim + 1
  primary := true
  flavor := .type

theorem symtabInsert_fresh {p : Policy} {d : CString}
    (fresh : hashtabSearch p.pTypes.table d = none) (datum : TypeSymbol) :
    symtabInsert p d datum =
      ({ p with
          typeScope := (declareScope p.typeScope d).1
          pTypes :=
            { table := p.pTypes.table.insertNew typesSize d datum
                ((hashtabSearch_eq_none_iff _ _).mp fresh)
              nprim := p.pTypes.nprim + 1 } }, p.pTypes.nprim + 1) := by
  rw [hashtabSearch_eq_none_iff] at fresh
  simp only [symtabInsert, hashtabInsert, fresh, not_false_eq_true, dif_pos]

theorem declareType_fresh {p : Policy} {d : CString}
    (fresh : hashtabSearch p.pTypes.table d = none) :
    ∃ table : Hashtab TypeSymbol,
      (table.entries.Perm ((d, newType p) :: p.pTypes.table.entries)) ∧
      declareType p d =
        ({ p with
            typeScope := (declareScope p.typeScope d).1
            pTypes := { table, nprim := p.pTypes.nprim + 1 }
            declaredTypes := ebitmapSetBit p.declaredTypes p.pTypes.nprim true
            typeAttrMap :=
              setRowBit (growRows p.typeAttrMap (p.pTypes.nprim + 1) p.pTypes.nprim)
                p.pTypes.nprim p.pTypes.nprim
            attrTypeMap := growRows p.attrTypeMap (p.pTypes.nprim + 1) p.pTypes.nprim },
          p.pTypes.nprim + 1) := by
  refine ⟨_, ?_, by rw [declareType, symtabInsert_fresh fresh]; rfl⟩
  have absent := (hashtabSearch_eq_none_iff p.pTypes.table d).mp fresh
  have kept : p.pTypes.table.entries.map (fun entry => (entry.1,
      if entry.1 = d then { entry.2 with value := p.pTypes.nprim + 1 } else entry.2)) =
      p.pTypes.table.entries := by
    conv_rhs => rw [← List.map_id p.pTypes.table.entries]
    apply List.map_congr_left
    intro entry member
    have other : entry.1 ≠ d := fun same => absent (same ▸ List.mem_map_of_mem member)
    simp [other]
  apply ((insertEntry_perm typesSize d _ p.pTypes.table.entries).map _).trans
  rw [List.map_cons, kept]
  simp [newType]

theorem reindex_def (p : Policy) :
    reindex p =
      let classes := buildIndex p.pClasses.nprim p.classNumbers
      let roles := symtabIndex p.pRoles.nprim p.roleNumbers
      let types := symtabIndex p.pTypes.nprim p.typeNumbers
      let withClasses := { p with classValToStruct := classes.1 }
      let withRoles :=
        { withClasses with
          roleValToStruct := roles.1
          typeValToStruct := List.replicate p.pTypes.nprim none }
      let withTypes :=
        { withRoles with
          typeValToName := types.1
          typeValToStruct := types.1 }
      if classes.2 = false then (withClasses, false)
      else if roles.2 = false then (withRoles, false)
      else if types.2 = false then (withTypes, false)
      else
        (withTypes, p.pRoles.table.data.all fun role => typeSetExpands withTypes role.types) :=
  rfl

theorem reindex_frame (p : Policy) :
    ∃ classes roles names structs, (reindex p).1 =
      { p with
        classValToStruct := classes
        roleValToStruct := roles
        typeValToName := names
        typeValToStruct := structs } := by
  rw [reindex_def]
  generalize buildIndex p.pClasses.nprim p.classNumbers = classes
  generalize symtabIndex p.pRoles.nprim p.roleNumbers = roles
  generalize symtabIndex p.pTypes.nprim p.typeNumbers = types
  dsimp only
  split
  · exact ⟨_, _, _, _, rfl⟩
  · split
    · exact ⟨_, _, _, _, rfl⟩
    · split
      · exact ⟨_, _, _, _, rfl⟩
      · exact ⟨_, _, _, _, rfl⟩

theorem reindex_succeeds {p : Policy} (succeeds : (reindex p).2 = true) :
    (symtabIndex p.pRoles.nprim p.roleNumbers).2 = true ∧
      (symtabIndex p.pTypes.nprim p.typeNumbers).2 = true ∧
      ∃ classes, (reindex p).1 =
        { p with
          classValToStruct := classes
          roleValToStruct := (symtabIndex p.pRoles.nprim p.roleNumbers).1
          typeValToName := (symtabIndex p.pTypes.nprim p.typeNumbers).1
          typeValToStruct := (symtabIndex p.pTypes.nprim p.typeNumbers).1 } := by
  rw [reindex_def] at succeeds ⊢
  generalize buildIndex p.pClasses.nprim p.classNumbers = classes at succeeds ⊢
  generalize symtabIndex p.pRoles.nprim p.roleNumbers = roles at succeeds ⊢
  generalize symtabIndex p.pTypes.nprim p.typeNumbers = types at succeeds ⊢
  rcases classes with ⟨classes, classesIndexed⟩
  rcases roles with ⟨roles, rolesIndexed⟩
  rcases types with ⟨types, typesIndexed⟩
  cases classesIndexed with
  | false => cases succeeds
  | true =>
      cases rolesIndexed with
      | false => cases succeeds
      | true =>
          cases typesIndexed with
          | false => cases succeeds
          | true => exact ⟨rfl, rfl, classes, rfl⟩

theorem createDomain_fresh {p : Policy} {d : CString}
    (fresh : hashtabSearch p.pTypes.table d = none) :
    createDomain p (some d) =
      if (reindex (declareType p d).1).2 = false then
        some ((reindex (declareType p d).1).1, 1)
      else
        (addToRoles (reindex (declareType p d).1).1 p.pTypes.nprim).map fun entered =>
          setAttr entered (ascii "domain") (p.pTypes.nprim + 1) := by
  rcases declareType_fresh fresh with ⟨table, permuted, declared⟩
  have entered : hashtabSearch (declareType p d).1.pTypes.table d = some (newType p) := by
    rw [hashtabSearch_eq_some_iff, declared, permuted.mem_iff]
    exact List.mem_cons_self
  have value : (declareType p d).2 = p.pTypes.nprim + 1 := by rw [declared]
  simp only [createDomain, Option.bind_eq_bind, Option.bind_some, fresh, entered, value,
    Option.pure_def, Nat.add_sub_cancel]
  split
  · rfl
  · cases addToRoles (reindex (declareType p d).1).1 p.pTypes.nprim with
    | none => rfl
    | some next => rfl

theorem createDomain_exists {p : Policy} {d : CString} {type : TypeSymbol}
    (found : hashtabSearch p.pTypes.table d = some type) :
    createDomain p (some d) = some (p, 0) := by
  simp [createDomain, found]

/-! ## Other operations -/

theorem onRules_eq (operation : Policydb → Policydb × Nat) (p : Policy) :
    onRules operation p =
      ({ p with teAvtab := (operation p.toPolicydb).1.teAvtab },
        (operation p.toPolicydb).2) := rfl

theorem addTransition_cases (p : Policy) (s t c d : CString) :
    (∃ error, transitionSymbols p s t c d = .error error ∧ addTransition p s t c d = (p, 1)) ∨
      ∃ symbols, transitionSymbols p s t c d = .ok symbols ∧
        addTransition p s t c d =
          ({ p with
              teAvtab := p.teAvtab.upsert
                (ruleKey symbols.src.value symbols.tgt.value symbols.cls.value .transition)
                { data := 0 }
                fun av => { av with data := BitVec.ofNat 32 symbols.default.value } }, 0) := by
  cases found : transitionSymbols p s t c d with
  | error error => exact Or.inl ⟨error, rfl, by simp [addTransition, found]⟩
  | ok symbols =>
      refine Or.inr ⟨symbols, rfl, ?_⟩
      have edits := editsKeys_upsertRule p.toPolicydb
        (ruleKey symbols.src.value symbols.tgt.value symbols.cls.value .transition)
        { data := 0 } (fun av => { av with data := BitVec.ofNat 32 symbols.default.value })
        p.teAvtab
      simp only [addTransition, found, onRules_eq]
      rw [show upsertRule p.toPolicydb _ _ _ = _ from edits]
      rfl

theorem setDomainState_cases (p : Policy) (s : Option CString) (state : Bool) :
    ∃ permissiveMap result, setDomainState p s state = ({ p with permissiveMap }, result) ∧
      (result ≠ 0 → permissiveMap = p.permissiveMap) := by
  cases s with
  | none => exact ⟨_, 0, rfl, fun failed => absurd rfl failed⟩
  | some s =>
      simp only [setDomainState, findSymbol]
      cases hashtabSearch p.pTypes.table s with
      | none => exact ⟨_, 1, rfl, fun _ => rfl⟩
      | some type => exact ⟨_, 0, rfl, fun failed => absurd rfl failed⟩

theorem addFileTransition_frame {p next : Policy} {s t c d filename : CString} {result : Nat}
    (ran : addFileTransition p s t c d filename = some (next, result)) :
    ∃ pTypes filenameTrans, next = { p with pTypes, filenameTrans } := by
  rw [addFileTransition] at ran
  cases found : transitionSymbols p s t c d with
  | error error =>
      simp only [found] at ran
      cases ran
      exact ⟨_, _, rfl⟩
  | ok symbols =>
      simp only [found] at ran
      split at ran
      · cases ran
        exact ⟨_, _, rfl⟩
      · rcases Option.map_eq_some_iff.mp ran with ⟨inserted, -, changed⟩
        cases changed
        exact ⟨_, _, rfl⟩

theorem specified_of_mem_ruleKeys {effect : AvtabSpecified} {srcs tgts : List TypeDatum}
    {clss : List ClassDatum} {key : AvtabKey} (member : key ∈ ruleKeys effect srcs tgts clss) :
    key.specified = effect := by
  simp only [ruleKeys, List.mem_flatMap, List.mem_map] at member
  rcases member with ⟨src, -, tgt, -, cls, -, rfl⟩
  rfl

theorem data_addRule_of_ne (db : Policydb) (s t c p : Option CString) (effect : AvtabSpecified)
    (not : Bool) {key : AvtabKey} (otherKind : key.specified ≠ effect) :
    (addRule db s t c p effect not).1.teAvtab.data key = db.teAvtab.data key := by
  cases found : ruleSymbols db s t c p with
  | error error => rw [addRule_unresolved found]
  | ok symbols =>
      have unvisited : key ∉ symbols.keys db effect :=
        fun member => otherKind (specified_of_mem_ruleKeys member)
      rw [addRule_eq_editKeys found, data_editKeys, if_neg unvisited]

def XpermSymbols.keys (symbols : XpermSymbols) (db : Policydb) (effect : AvtabSpecified) :
    List AvtabKey :=
  ruleKeys effect (expanded db.pTypes symbols.src) (expanded db.pTypes symbols.tgt)
    (expanded db.pClasses symbols.cls)

theorem addXpermRule_eq_editKeys {db : Policydb} {s t c : Option CString}
    {symbols : XpermSymbols} (found : xpermSymbols db s t c = .ok symbols)
    (stale : UInt16 × UInt16) (range : Option CString) (effect : AvtabSpecified) (not : Bool) :
    addXpermRule stale s t c range effect not db =
      ({ db with
          teAvtab := editKeys
            { data := 0
              xperms := newXperms (scanRange stale range).1 (scanRange stale range).2 }
            (editXpermDatum (scanRange stale range).1 (scanRange stale range).2 not)
            (symbols.keys db effect) db.teAvtab }, 0) := by
  have eachKey := fun s t c => editsKeys_addXpermRule db s t c (scanRange stale range).1
    (scanRange stale range).2 effect not
  simp only [addXpermRule, found]
  exact editsKeys_ruleAuto (fun _ => eachKey) eachKey symbols.src symbols.tgt db.teAvtab

theorem addXpermRule_unresolved {db : Policydb} {s t c : Option CString} {error : RuleError}
    (missing : xpermSymbols db s t c = .error error) (stale : UInt16 × UInt16)
    (range : Option CString) (effect : AvtabSpecified) (not : Bool) :
    addXpermRule stale s t c range effect not db = (db, 1) := by
  rw [addXpermRule, missing]

/-! ## Every call -/

/-- `typetrans` with an object name, which may write to the type table. -/
def IsNamedTransition : PolicyCall → Prop
  | .typetrans _ _ _ _ (some _) => True
  | _ => False

def IsXperm : PolicyCall → Prop
  | .xperm _ _ _ _ _ => True
  | _ => False

instance : DecidablePred IsXperm
  | .rule _ _ _ _ _ => .isFalse id
  | .xperm _ _ _ _ _ => .isTrue trivial
  | .attradd _ _ => .isFalse id
  | .typeState _ _ => .isFalse id
  | .typetrans _ _ _ _ _ => .isFalse id

def CreatesNew (p : Policy) (d : CString) (call : PolicyCall) : Prop :=
  call = .typeState .create (some d) ∧ hashtabSearch p.pTypes.table d = none

inductive Executes (p : Policy) (call : PolicyCall) : Policy → Prop
  | rules (teAvtab : Avtab) (permissiveMap : Ebitmap)
      (xpermsKept : ¬IsXperm call → ∀ key, key.specified.isXperms = true →
        teAvtab.data key = p.teAvtab.data key) :
      Executes p call { p with teAvtab, permissiveMap }
  | sets (domainS attr : CString) (domain : TypeSymbol) (table : Hashtab ClassSymbol)
      (isCall : call = .attradd (some domainS) (some attr))
      (found : hashtabSearch p.pTypes.table domainS = some domain) :
      Executes p call
        { (setAttr p attr domain.value).1 with pClasses := { p.pClasses with table } }
  | creates (d : CString) (isNew : CreatesNew p d call) (next : Policy) (result : Nat)
      (ran : createDomain p (some d) = some (next, result)) : Executes p call next
  | named (pTypes : Symtab TypeSymbol) (filenameTrans : FilenameTransTable)
      (isNamed : IsNamedTransition call) : Executes p call { p with pTypes, filenameTrans }

theorem executes_unchanged (p : Policy) (call : PolicyCall) : Executes p call p :=
  Executes.rules p.teAvtab p.permissiveMap fun _ _ _ => rfl

theorem executes_setDomainState {p next : Policy} {s : Option CString} {state : Bool}
    {result : Nat} (call : PolicyCall) (changed : setDomainState p s state = (next, result)) :
    Executes p call next := by
  rcases setDomainState_cases p s state with ⟨map, status, isMap, -⟩
  cases isMap.symm.trans changed
  exact Executes.rules p.teAvtab map fun _ _ _ => rfl

theorem perform_eq_some {invocation : Invocation} {p next : Policy}
    (performed : perform invocation p = some next) :
    ∃ result, execute invocation p = some (next, result) := by
  rcases Option.map_eq_some_iff.mp performed with ⟨⟨next, result⟩, ran, rfl⟩
  exact ⟨result, ran⟩

theorem executes_of_execute {invocation : Invocation} {p next : Policy} {result : Nat}
    (ran : execute invocation p = some (next, result)) : Executes p invocation.call next := by
  rcases invocation with ⟨call, stale⟩
  cases call with
  | rule action s t c perm =>
      cases ran
      refine Executes.rules _ p.permissiveMap fun _ key isXperms => ?_
      apply data_addRule_of_ne p.toPolicydb
      intro sameKind
      rw [sameKind] at isXperms
      cases action <;> cases isXperms
  | xperm action s t c range =>
      cases ran
      exact Executes.rules _ p.permissiveMap fun notXperm => absurd trivial notXperm
  | attradd s a =>
      rcases addTypeattribute_cases ran with
        ⟨rfl, -⟩ | ⟨domainS, attr, domain, table, rfl, rfl, found, rfl, -⟩
      · exact executes_unchanged _ _
      · exact Executes.sets domainS attr domain table rfl found
  | typeState action s =>
      cases action with
      | create =>
          cases s with
          | none => cases ran
          | some d =>
              cases found : hashtabSearch p.pTypes.table d with
              | none => exact Executes.creates d ⟨rfl, found⟩ next result ran
              | some type =>
                  cases (createDomain_exists found).symm.trans ran
                  exact executes_unchanged _ _
      | permissive => exact executes_setDomainState _ (Option.some.inj ran)
      | enforce => exact executes_setDomainState _ (Option.some.inj ran)
  | typetrans s t c d o =>
      cases o with
      | some o =>
          rcases addFileTransition_frame ran with ⟨pTypes, filenameTrans, rfl⟩
          exact Executes.named pTypes filenameTrans trivial
      | none =>
          rcases addTransition_cases p s t c d with ⟨error, -, changed⟩ | ⟨symbols, -, changed⟩
          · cases (congrArg some changed).symm.trans ran
            exact executes_unchanged _ _
          · cases (congrArg some changed).symm.trans ran
            refine Executes.rules _ p.permissiveMap fun _ key isXperms => ?_
            rw [Avtab.data_upsert, if_neg]
            rintro rfl
            cases isXperms

end SuBinary.Magiskpolicy
