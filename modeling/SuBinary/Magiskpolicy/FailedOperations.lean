import SuBinary.Magiskpolicy.TypeNumbering

/-! # Failed operations

Most operations look all their names up before they change anything.
`create_domain` changes the policy first and looks for the attribute `domain`
at its end.
-/

namespace SuBinary.Magiskpolicy

open SuBinary Sepol

/-! ## What is asked of a call -/

/-- A call that reports an error leaves the policy as it was. -/
def FailsCleanly (invocation : Invocation) (p : Policy) : Prop :=
  ∀ next result, execute invocation p = some (next, result) → result ≠ 0 → next = p

/-- `attradd`, which is none of the operations that report errors this way. -/
def IsAttradd : PolicyCall → Prop
  | .attradd _ _ => True
  | _ => False

/-- The numbers in the symbol tables are such that the index arrays can be
built with one type more, as the loader has built them. -/
structure Indexable (p : Policy) : Prop where
  classes : (buildIndex p.pClasses.nprim p.classNumbers).2 = true
  roles : (symtabIndex p.pRoles.nprim p.roleNumbers).2 = true
  types : (buildIndex p.pTypes.nprim p.typeNumbers).2 = true
  roleTypes : ∀ role, role ∈ p.pRoles.table.data → ∀ bit, bit ∈ role.types.bits →
    bit = p.pTypes.nprim ∨ ∃ name, (name, bit + 1) ∈ p.typeNumbers

def RolesNumbered (p : Policy) : Prop :=
  AllPoint (symtabIndex p.pRoles.nprim p.roleNumbers).1 p.pRoles.nprim

/-- `create` cannot end well: the arrays cannot be built, or the roles are all
there and then `domain` is no attribute. -/
def CreateMustFail (p : Policy) : Prop :=
  ¬Indexable p ∨ (RolesNumbered p ∧ attrValue p (ascii "domain") = none)

/-! ## The rebuild after a declaration -/

theorem typeNumbers_declareType {p : Policy} {d : CString}
    (fresh : hashtabSearch p.pTypes.table d = none) :
    (declareType p d).1.typeNumbers.Perm ((d, p.pTypes.nprim + 1) :: p.typeNumbers) := by
  rcases declareType_fresh fresh with ⟨table, permuted, declared⟩
  rw [declared]
  have selected := (permuted.filter fun entry => entry.2.primary).map
    fun entry => (entry.1, entry.2.value)
  simpa [Policy.typeNumbers, newType] using selected

theorem buildIndex_declareType_iff {p : Policy} {d : CString}
    (fresh : hashtabSearch p.pTypes.table d = none) :
    (buildIndex (p.pTypes.nprim + 1) (declareType p d).1.typeNumbers).2 = true ↔
      (buildIndex p.pTypes.nprim p.typeNumbers).2 = true := by
  have permuted := typeNumbers_declareType fresh
  rw [buildIndex_succeeds_iff, buildIndex_succeeds_iff, (permuted.map Prod.snd).nodup_iff]
  simp only [permuted.mem_iff, List.mem_cons, forall_eq_or_imp, List.map_cons, List.nodup_cons]
  constructor
  · rintro ⟨⟨-, inRange⟩, notTaken, distinct⟩
    refine ⟨fun entry member => ?_, distinct⟩
    have bound := inRange entry member
    have other : entry.2 ≠ p.pTypes.nprim + 1 :=
      fun same => notTaken (same ▸ List.mem_map_of_mem member)
    omega
  · rintro ⟨inRange, distinct⟩
    refine ⟨⟨⟨by omega, Nat.le_refl _⟩, fun entry member => ?_⟩, fun taken => ?_, distinct⟩
    · have bound := inRange entry member
      omega
    · rcases List.mem_map.mp taken with ⟨entry, member, same⟩
      have bound := inRange entry member
      omega

theorem isSome_join_iff (pointer : Option (Option CString)) :
    (pointer.join).isSome = true ↔ ∃ name, pointer = some (some name) := by
  cases pointer with
  | none => simp
  | some slot =>
      cases slot with
      | none => simp
      | some name => simp

theorem reindex_succeeds_iff (p : Policy) :
    (reindex p).2 = true ↔
      (buildIndex p.pClasses.nprim p.classNumbers).2 = true ∧
      (symtabIndex p.pRoles.nprim p.roleNumbers).2 = true ∧
      (symtabIndex p.pTypes.nprim p.typeNumbers).2 = true ∧
      ∀ role, role ∈ p.pRoles.table.data → ∀ bit, bit ∈ role.types.bits →
        bit < p.pTypes.nprim ∧
          ∃ name, (symtabIndex p.pTypes.nprim p.typeNumbers).1[bit]? = some (some name) := by
  rw [reindex_def]
  generalize buildIndex p.pClasses.nprim p.classNumbers = classes
  generalize symtabIndex p.pRoles.nprim p.roleNumbers = roles
  generalize symtabIndex p.pTypes.nprim p.typeNumbers = types
  rcases classes with ⟨classes, classesIndexed⟩
  rcases roles with ⟨roles, rolesIndexed⟩
  rcases types with ⟨types, typesIndexed⟩
  cases classesIndexed with
  | false => simp
  | true =>
      cases rolesIndexed with
      | false => simp
      | true =>
          cases typesIndexed with
          | false => simp
          | true =>
              simp only [Bool.true_eq_false, if_false, true_and, List.all_eq_true, typeSetExpands,
                Bool.and_eq_true, decide_eq_true_eq, isSome_join_iff]

theorem reindex_declareType_iff {p : Policy} {d : CString}
    (fresh : hashtabSearch p.pTypes.table d = none) :
    (reindex (declareType p d).1).2 = true ↔ Indexable p := by
  have typesIndexed := buildIndex_declareType_iff fresh
  have numbers := typeNumbers_declareType fresh
  have index : ∀ succeeds : (buildIndex (p.pTypes.nprim + 1)
      (declareType p d).1.typeNumbers).2 = true, ∀ bit,
      (bit < p.pTypes.nprim + 1 ∧ ∃ name, (buildIndex (p.pTypes.nprim + 1)
        (declareType p d).1.typeNumbers).1[bit]? = some (some name)) ↔
        bit = p.pTypes.nprim ∨ ∃ name, (name, bit + 1) ∈ p.typeNumbers := by
    intro succeeds bit
    have inRange := ((buildIndex_succeeds_iff _ _).mp (typesIndexed.mp succeeds)).1
    simp only [indexes_buildIndex succeeds bit, numbers.mem_iff, List.mem_cons, Prod.mk.injEq,
      Nat.add_right_cancel_iff]
    constructor
    · rintro ⟨-, name, ⟨-, rfl⟩ | old⟩
      · exact Or.inl rfl
      · exact Or.inr ⟨name, old⟩
    · rintro (rfl | ⟨name, old⟩)
      · exact ⟨Nat.lt_succ_self _, d, Or.inl ⟨rfl, rfl⟩⟩
      · have bound := inRange _ old
        exact ⟨by omega, name, Or.inr old⟩
  rcases declareType_fresh fresh with ⟨table, -, declared⟩
  have numbered : p.pTypes.nprim + 1 ≠ 0 := Nat.succ_ne_zero _
  have sameClasses : (declareType p d).1.pClasses = p.pClasses := by rw [declared]
  have sameRoles : (declareType p d).1.pRoles = p.pRoles := by rw [declared]
  have oneMore : (declareType p d).1.pTypes.nprim = p.pTypes.nprim + 1 := by rw [declared]
  have sameClassNumbers : (declareType p d).1.classNumbers = p.classNumbers := by
    simp only [Policy.classNumbers, sameClasses]
  have sameRoleNumbers : (declareType p d).1.roleNumbers = p.roleNumbers := by
    simp only [Policy.roleNumbers, sameRoles]
  rw [reindex_succeeds_iff, sameClasses, sameRoles, oneMore, sameClassNumbers, sameRoleNumbers,
    symtabIndex, symtabIndex, if_neg numbered]
  constructor
  · rintro ⟨classes, roles, types, roleTypes⟩
    refine ⟨classes, roles, typesIndexed.mp types, fun role member bit set => ?_⟩
    exact (index types bit).mp (roleTypes role member bit set)
  · rintro ⟨classes, roles, types, roleTypes⟩
    have succeeds := typesIndexed.mpr types
    refine ⟨classes, roles, succeeds, fun role member bit set => ?_⟩
    exact (index succeeds bit).mpr (roleTypes role member bit set)

/-! ## Operations that fail cleanly -/

variable {p next : Policy} {result : Nat}

theorem onRules_fails_cleanly {operation : Policydb → Policydb × Nat}
    (clean : (operation p.toPolicydb).2 ≠ 0 →
      (operation p.toPolicydb).1.teAvtab = p.teAvtab)
    (ran : onRules operation p = (next, result)) (failed : result ≠ 0) : next = p := by
  cases ran
  rw [clean failed]

theorem addRule_fails_cleanly (db : Policydb) (s t c p : Option CString)
    (effect : AvtabSpecified) (not : Bool) (failed : (addRule db s t c p effect not).2 ≠ 0) :
    (addRule db s t c p effect not).1.teAvtab = db.teAvtab := by
  cases found : ruleSymbols db s t c p with
  | error error => rw [addRule_unresolved found]
  | ok symbols =>
      rw [addRule_eq_editKeys found] at failed
      exact absurd rfl failed

theorem addXpermRule_fails_cleanly (db : Policydb) (stale : UInt16 × UInt16)
    (s t c range : Option CString) (effect : AvtabSpecified) (not : Bool)
    (failed : (addXpermRule stale s t c range effect not db).2 ≠ 0) :
    (addXpermRule stale s t c range effect not db).1.teAvtab = db.teAvtab := by
  cases found : xpermSymbols db s t c with
  | error error => rw [addXpermRule_unresolved found]
  | ok symbols =>
      rw [addXpermRule_eq_editKeys found] at failed
      exact absurd rfl failed

theorem setDomainState_fails_cleanly {s : Option CString} {state : Bool}
    (ran : setDomainState p s state = (next, result)) (failed : result ≠ 0) : next = p := by
  rcases setDomainState_cases p s state with ⟨map, status, changed, clean⟩
  cases changed.symm.trans ran
  rw [clean failed]

theorem addTransition_fails_cleanly {s t c d : CString}
    (ran : addTransition p s t c d = (next, result)) (failed : result ≠ 0) : next = p := by
  rcases addTransition_cases p s t c d with ⟨error, -, changed⟩ | ⟨symbols, -, changed⟩
  · cases changed.symm.trans ran
    rfl
  · cases changed.symm.trans ran
    exact absurd rfl failed

theorem addFileTransition_fails_cleanly {s t c d filename : CString}
    (ran : addFileTransition p s t c d filename = some (next, result)) (failed : result ≠ 0) :
    next = p := by
  rw [addFileTransition] at ran
  cases found : transitionSymbols p s t c d with
  | error error =>
      simp only [found] at ran
      cases ran
      rfl
  | ok symbols =>
      simp only [found] at ran
      split at ran
      · cases ran
        exact absurd rfl failed
      · rcases Option.map_eq_some_iff.mp ran with ⟨inserted, -, changed⟩
        cases changed
        exact absurd rfl failed

/-! ## New types -/

/-- `create` of a new name never leaves the policy as it was. -/
theorem createDomain_fresh_ne {d : CString}
    (fresh : hashtabSearch p.pTypes.table d = none)
    (ran : createDomain p (some d) = some (next, result)) : next ≠ p := by
  have oneMore : (reindex (declareType p d).1).1.pTypes.nprim = p.pTypes.nprim + 1 := by
    rcases reindex_frame (declareType p d).1 with ⟨_, _, _, _, framed⟩
    rcases declareType_fresh fresh with ⟨_, -, declared⟩
    rw [framed, declared]
  have grown : next.pTypes.nprim = p.pTypes.nprim + 1 := by
    rw [createDomain_fresh fresh] at ran
    split at ran
    · cases ran
      exact oneMore
    · rcases Option.map_eq_some_iff.mp ran with ⟨entered, intoRoles, changed⟩
      rcases Option.bind_eq_some_iff.mp intoRoles with ⟨table, -, isEntered⟩
      have sameTypes := (keepsTypes_setAttr entered (ascii "domain") (p.pTypes.nprim + 1)).pTypes
      rw [changed] at sameTypes
      cases isEntered
      rw [sameTypes]
      exact oneMore
  intro same
  rw [same] at grown
  omega

theorem createDomain_fails_iff {d : CString}
    (fresh : hashtabSearch p.pTypes.table d = none) :
    (∃ next result, createDomain p (some d) = some (next, result) ∧ result ≠ 0) ↔
      CreateMustFail p := by
  have rebuilds := reindex_declareType_iff fresh
  by_cases indexable : Indexable p
  · have rebuilt := rebuilds.mpr indexable
    have pointers : (reindex (declareType p d).1).1.roleValToStruct =
        (symtabIndex p.pRoles.nprim p.roleNumbers).1 ∧
        (reindex (declareType p d).1).1.pRoles = p.pRoles := by
      rcases reindex_succeeds rebuilt with ⟨-, -, classes, reindexed⟩
      rcases declareType_fresh fresh with ⟨table, -, declared⟩
      rw [reindexed, declared]
      exact ⟨rfl, rfl⟩
    by_cases numbered : RolesNumbered p
    · cases ran : createDomain p (some d) with
      | none =>
          rw [createDomain_fresh fresh, if_neg (by simp [rebuilt]), addToRoles, pointers.1,
            pointers.2, modifyPointed_eq numbered _ (addRoleType_idempotent p.pTypes.nprim)] at ran
          cases ran
      | some outcome =>
          rcases createDomain_enters fresh rebuilt ran with ⟨entered, enters, changed⟩
          rw [setAttr_eq, enters.attrValue_eq fresh] at changed
          cases isAttr : attrValue p (ascii "domain") with
          | none =>
              rw [isAttr] at changed
              have failed : outcome.2 = 1 := congrArg Prod.snd changed
              refine iff_of_true ⟨outcome.1, outcome.2, rfl, ?_⟩ (Or.inr ⟨numbered, isAttr⟩)
              rw [failed]
              exact Nat.one_ne_zero
          | some attr =>
              rw [isAttr] at changed
              have succeeded : outcome.2 = 0 := congrArg Prod.snd changed
              apply iff_of_false
              · rintro ⟨next, result, isOutcome, failed⟩
                cases isOutcome
                exact failed succeeded
              · rintro (notIndexable | ⟨-, noAttr⟩)
                · exact notIndexable indexable
                · rw [isAttr] at noAttr
                  cases noAttr
    · have crashes : createDomain p (some d) = none := by
        rw [createDomain_fresh fresh, if_neg (by simp [rebuilt]), addToRoles, pointers.1,
          pointers.2, modifyPointed_eq_none numbered]
        rfl
      simp [crashes, CreateMustFail, indexable, numbered]
  · have failed : (reindex (declareType p d).1).2 = false :=
      Bool.eq_false_iff.mpr (mt rebuilds.mp indexable)
    rw [createDomain_fresh fresh, if_pos failed]
    exact iff_of_true ⟨_, 1, rfl, Nat.one_ne_zero⟩ (Or.inl indexable)

/-! ## Every call -/

/-- A call fails cleanly if and only if it is not the creation of a type that
must fail. -/
theorem failsCleanly_iff (p : Policy) (invocation : Invocation)
    (notAttradd : ¬IsAttradd invocation.call) :
    FailsCleanly invocation p ↔ ¬∃ d, CreatesNew p d invocation.call ∧ CreateMustFail p := by
  by_cases isNew : ∃ d, CreatesNew p d invocation.call
  · rcases isNew with ⟨d, isCreate, fresh⟩
    have failsIff := createDomain_fails_iff fresh
    have runs : execute invocation p = createDomain p (some d) := by rw [execute, isCreate]
    constructor
    · rintro clean ⟨-, -, mustFail⟩
      rcases failsIff.mpr mustFail with ⟨next, result, ran, failed⟩
      exact createDomain_fresh_ne fresh ran (clean next result (runs.trans ran) failed)
    · intro notBoth next result ran failed
      rw [runs] at ran
      exact absurd ⟨d, ⟨isCreate, fresh⟩, failsIff.mp ⟨next, result, ran, failed⟩⟩ notBoth
  · have notBoth : ¬∃ d, CreatesNew p d invocation.call ∧ CreateMustFail p := by
      rintro ⟨d, creates, -⟩
      exact isNew ⟨d, creates⟩
    refine iff_of_true (fun next result ran failed => ?_) notBoth
    rcases invocation with ⟨call, stale⟩
    cases call with
    | rule action s t c perm =>
        exact onRules_fails_cleanly
          (addRule_fails_cleanly p.toPolicydb s t c perm action.effect.1 action.effect.2)
          (Option.some.inj ran) failed
    | xperm action s t c range =>
        exact onRules_fails_cleanly
          (addXpermRule_fails_cleanly p.toPolicydb stale s t c range action.effect false)
          (Option.some.inj ran) failed
    | attradd s a => exact absurd trivial notAttradd
    | typeState action s =>
        cases action with
        | create =>
            cases s with
            | none => cases ran
            | some d =>
                cases found : hashtabSearch p.pTypes.table d with
                | none => exact absurd ⟨d, rfl, found⟩ isNew
                | some type =>
                    cases (createDomain_exists found).symm.trans ran
                    rfl
        | permissive => exact setDomainState_fails_cleanly (Option.some.inj ran) failed
        | enforce => exact setDomainState_fails_cleanly (Option.some.inj ran) failed
    | typetrans s t c d o =>
        cases o with
        | none => exact addTransition_fails_cleanly (Option.some.inj ran) failed
        | some o => exact addFileTransition_fails_cleanly ran failed

/-- `allow` with an unknown source leaves the policy as it was. -/
theorem failsCleanly_allow_unknown :
    FailsCleanly ⟨.rule .allow (some (ascii "nobody")) none none none, (0, 0)⟩ (shellPolicy 30) :=
  (failsCleanly_iff (shellPolicy 30)
    ⟨.rule .allow (some (ascii "nobody")) none none none, (0, 0)⟩ id).mpr
    fun ⟨_, ⟨isCreate, _⟩, _⟩ => nomatch isCreate

/-- The policy of `shell` with a type, not an attribute, of the name
`domain`. -/
def plainDomainPolicy : Policy :=
  { shellPolicy 30 with
    pTypes :=
      { table :=
          { entries :=
              [(ascii "shell", { value := 1, primary := true, flavor := .type }),
                (ascii "domain", { value := 2, primary := true, flavor := .type })]
            distinct := (shellPolicy 30).pTypes.table.distinct }
        nprim := 2 } }

/-- Where `domain` is no attribute, `create su` reports an error and leaves the
type behind. -/
theorem create_su_fails_with_effect :
    ¬FailsCleanly ⟨.typeState .create (some (ascii "su")), (0, 0)⟩ plainDomainPolicy := by
  intro clean
  have same := clean _ 1 rfl Nat.one_ne_zero
  have sameCount := congrArg (fun p : Policy => p.pTypes.nprim) same
  exact absurd sameCount (by decide)

end SuBinary.Magiskpolicy
