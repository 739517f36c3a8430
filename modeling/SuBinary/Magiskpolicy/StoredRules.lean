import SuBinary.Magiskpolicy.XpermVersions
import SuBinary.Sepol.AvtabFile

/-! # Rules that are stored and loaded again

What statements make of the rules of a policy that was loaded from a file has a text in the
format of that file, and reading the text gives rules of the same meaning.
-/

namespace SuBinary.Magiskpolicy

open SuBinary Sepol ChainTable Decoder

/-! ## Edits of many keys -/

theorem forall_data_editKeys {Holds : AvtabKey → AvtabDatum → Prop} {initial : AvtabDatum}
    {change : AvtabDatum → AvtabDatum} {keys : List AvtabKey}
    (added : ∀ key, key ∈ keys → Holds key (change initial))
    (changed : ∀ key datum, Holds key datum → Holds key (change datum)) {h : Avtab}
    (holds : ∀ key datum, datum ∈ h.data key → Holds key datum) :
    ∀ key datum, datum ∈ (editKeys initial change keys h).data key → Holds key datum := by
  induction keys generalizing h with
  | nil => exact holds
  | cons first rest induction =>
      rw [editKeys, List.foldl_cons]
      apply induction fun key member => added key (List.mem_cons_of_mem first member)
      intro key datum member
      rw [Avtab.data_upsert] at member
      split at member
      · rename_i same
        subst same
        rcases List.mem_cons.mp member with rfl | later
        · cases stored : h.data first with
          | nil => exact added first List.mem_cons_self
          | cons head tail =>
              exact changed first head (holds first head (stored ▸ List.mem_cons_self))
        · exact holds first datum (List.mem_of_mem_tail later)
      · exact holds key datum member

theorem data_editKeys_ne_nil {initial : AvtabDatum} {change : AvtabDatum → AvtabDatum}
    {keys : List AvtabKey} {h : Avtab} {key : AvtabKey} (stored : h.data key ≠ []) :
    (editKeys initial change keys h).data key ≠ [] := by
  induction keys generalizing h with
  | nil => exact stored
  | cons first rest induction =>
      rw [editKeys, List.foldl_cons]
      apply induction
      rw [Avtab.data_upsert]
      split
      · exact List.cons_ne_nil _ _
      · exact stored

/-! ## One call -/

def nodeOf (key : AvtabKey) (datum : AvtabDatum) : AvtabNode :=
  ⟨key.toAvtabTriple, key.specified, datum⟩

/-- What calls keep of the rules: there is one, and each one has a text in the format. -/
structure Storable (androidMCompat : Bool) (p : Policy) : Prop where
  compatVersion : androidMCompat = true → p.policyvers = versionXpermsIoctl
  someRule : ∃ key, p.teAvtab.data key ≠ []
  readable : ∀ key datum, datum ∈ p.teAvtab.data key →
    Readable p.policyvers androidMCompat (nodeOf key datum)

theorem readable_of_plain {vers : Nat} {androidMCompat : Bool} {key : AvtabKey}
    (plain : key.specified.isXperms = false) (datum : AvtabDatum) :
    Readable vers androidMCompat (nodeOf key datum) := by
  intro extended
  rw [show (nodeOf key datum).tag = key.specified from rfl, plain] at extended
  cases extended

/-- The text of a node depends on the kind of its extended permissions, which edits keep. -/
theorem readable_of_specified {vers : Nat} {androidMCompat : Bool} {key : AvtabKey}
    {datum other : AvtabDatum} (same : other.xperms.specified = datum.xperms.specified)
    (readable : Readable vers androidMCompat (nodeOf key datum)) :
    Readable vers androidMCompat (nodeOf key other) := by
  intro extended
  have specifies := readable extended
  simp only [nodeOf] at specifies ⊢
  rwa [same]

theorem editXpermDatum_specified (low high : UInt16) (not : Bool) (datum : AvtabDatum) :
    (editXpermDatum low high not datum).xperms.specified = datum.xperms.specified := by
  rw [editXpermDatum, editXperms]
  split
  · rfl
  · rfl

theorem newXperms_specified (low high : UInt16) :
    (newXperms low high).specified = xpermsIoctlfunction ∨
      (newXperms low high).specified = xpermsIoctldriver := by
  rw [newXperms]
  split
  · exact Or.inr rfl
  · exact Or.inl rfl

theorem readable_of_version {vers : Nat} {androidMCompat : Bool}
    (compatVersion : androidMCompat = true → vers = versionXpermsIoctl)
    (hasXperms : versionXpermsIoctl ≤ vers) {key : AvtabKey} {datum : AvtabDatum}
    (isKind : datum.xperms.specified = xpermsIoctlfunction ∨
      datum.xperms.specified = xpermsIoctldriver) :
    Readable vers androidMCompat (nodeOf key datum) := by
  intro _
  refine ⟨hasXperms, ?_⟩
  cases androidMCompat with
  | true =>
      rcases isKind with isFunction | isDriver
      · exact Or.inl isFunction
      · exact Or.inr ⟨isDriver, compatVersion rfl⟩
  | false => exact Or.inr isKind

section Calls

variable {androidMCompat : Bool} {p next : Policy}

theorem Storable.editKeys (storable : Storable androidMCompat p) {initial : AvtabDatum}
    {change : AvtabDatum → AvtabDatum} {keys : List AvtabKey}
    (isNext : next.teAvtab = Magiskpolicy.editKeys initial change keys p.teAvtab)
    (sameVersion : next.policyvers = p.policyvers)
    (sameKind : ∀ datum, (change datum).xperms.specified = datum.xperms.specified)
    (added : ∀ key, key ∈ keys →
      Readable p.policyvers androidMCompat (nodeOf key (change initial))) :
    Storable androidMCompat next := by
  refine ⟨fun compat => sameVersion.trans (storable.compatVersion compat), ?_, ?_⟩
  · rcases storable.someRule with ⟨key, stored⟩
    exact ⟨key, isNext ▸ data_editKeys_ne_nil stored⟩
  · rw [isNext, sameVersion]
    exact forall_data_editKeys added
      (fun key datum readable => readable_of_specified (sameKind datum) readable)
      storable.readable

theorem Storable.of_same (storable : Storable androidMCompat p)
    (sameTable : next.teAvtab = p.teAvtab) (sameVersion : next.policyvers = p.policyvers) :
    Storable androidMCompat next := by
  refine ⟨fun compat => sameVersion.trans (storable.compatVersion compat), ?_, ?_⟩
  · rw [sameTable]
    exact storable.someRule
  · rw [sameTable, sameVersion]
    exact storable.readable

theorem Storable.rule (storable : Storable androidMCompat p) (action : RuleAction)
    (s t c perm : Option CString) :
    Storable androidMCompat
      (onRules (fun db => addRule db s t c perm action.effect.1 action.effect.2) p).1 := by
  cases found : ruleSymbols p.toPolicydb s t c perm with
  | error error =>
      have sameTable : (onRules (fun db => addRule db s t c perm action.effect.1
          action.effect.2) p).1.teAvtab = p.teAvtab := by
        rw [onRules_eq, addRule_unresolved found]
        rfl
      exact storable.of_same sameTable rfl
  | ok symbols =>
      have isNext : (onRules (fun db => addRule db s t c perm action.effect.1
          action.effect.2) p).1.teAvtab =
            Magiskpolicy.editKeys { data := 0 } (editDatum (permArg symbols.perm) action.effect.2)
              (symbols.keys p.toPolicydb action.effect.1) p.teAvtab := by
        rw [onRules_eq, addRule_eq_editKeys found]
        rfl
      apply storable.editKeys isNext rfl fun _ => rfl
      intro key member
      apply readable_of_plain
      rw [specified_of_mem_ruleKeys member]
      cases action <;> rfl

theorem Storable.xperm (storable : Storable androidMCompat p) {action : XpermAction}
    {s t c range : Option CString} {stale : UInt16 × UInt16}
    (allowed : VersionAllows ⟨.xperm action s t c range, stale⟩ p) :
    Storable androidMCompat (onRules (addXpermRule stale s t c range action.effect false) p).1 := by
  cases found : xpermSymbols p.toPolicydb s t c with
  | error error =>
      have sameTable : (onRules (addXpermRule stale s t c range action.effect false)
          p).1.teAvtab = p.teAvtab := by
        rw [onRules_eq, addXpermRule_unresolved found]
        rfl
      exact storable.of_same sameTable rfl
  | ok symbols =>
      have isNext : (onRules (addXpermRule stale s t c range action.effect false) p).1.teAvtab =
          Magiskpolicy.editKeys
            { data := 0
              xperms := newXperms (scanRange stale range).1 (scanRange stale range).2 }
            (editXpermDatum (scanRange stale range).1 (scanRange stale range).2 false)
            (symbols.keys p.toPolicydb action.effect) p.teAvtab := by
        rw [onRules_eq, addXpermRule_eq_editKeys found]
        rfl
      apply storable.editKeys isNext rfl (editXpermDatum_specified _ _ false)
      intro key member
      have hasXperms := allowed action s t c range symbols rfl found (List.ne_nil_of_mem member)
      apply readable_of_version storable.compatVersion hasXperms
      rw [editXpermDatum_specified]
      exact newXperms_specified _ _

theorem Storable.transition (storable : Storable androidMCompat p) {key : AvtabKey}
    (plain : key.specified.isXperms = false) (data : BitVec 32) :
    Storable androidMCompat
      { p with teAvtab := p.teAvtab.upsert key { data := 0 } fun av => { av with data } } := by
  have isNext : ({ p with
      teAvtab := p.teAvtab.upsert key { data := 0 } fun av => { av with data } } : Policy).teAvtab =
      Magiskpolicy.editKeys { data := 0 } (fun av => { av with data }) [key] p.teAvtab := rfl
  apply storable.editKeys isNext rfl fun _ => rfl
  intro other member
  cases List.mem_singleton.mp member
  exact readable_of_plain plain _

theorem Storable.perform (storable : Storable androidMCompat p) {invocation : Invocation}
    (allowed : VersionAllows invocation p) (performed : perform invocation p = some next) :
    Storable androidMCompat next := by
  rcases perform_eq_some performed with ⟨result, ran⟩
  rcases invocation with ⟨call, stale⟩
  cases call with
  | rule action s t c perm =>
      cases ran
      exact storable.rule action s t c perm
  | xperm action s t c range =>
      cases ran
      exact storable.xperm allowed
  | attradd s a =>
      rcases addTypeattribute_cases ran with
        ⟨rfl, -⟩ | ⟨domainS, attr, domain, table, -, -, -, rfl, -⟩
      · exact storable
      · have maps := changesMaps_setAttr p attr domain.value
        exact storable.of_same maps.teAvtab_eq maps.policyvers_eq
  | typeState action s =>
      cases action with
      | create =>
          cases s with
          | none => cases ran
          | some d =>
              cases found : hashtabSearch p.pTypes.table d with
              | none =>
                  rcases createDomain_frame found ran with ⟨sameTable, sameVersion⟩
                  exact storable.of_same sameTable sameVersion
              | some type =>
                  cases (createDomain_exists found).symm.trans ran
                  exact storable
      | permissive =>
          rcases setDomainState_cases p s true with ⟨map, status, isMap, -⟩
          cases isMap.symm.trans (Option.some.inj ran)
          exact storable.of_same rfl rfl
      | enforce =>
          rcases setDomainState_cases p s false with ⟨map, status, isMap, -⟩
          cases isMap.symm.trans (Option.some.inj ran)
          exact storable.of_same rfl rfl
  | typetrans s t c d o =>
      cases o with
      | some o =>
          rcases addFileTransition_frame ran with ⟨pTypes, filenameTrans, rfl⟩
          exact storable.of_same rfl rfl
      | none =>
          rcases addTransition_cases p s t c d with ⟨error, -, changed⟩ | ⟨symbols, -, changed⟩
          · cases (congrArg some changed).symm.trans ran
            exact storable
          · cases (congrArg some changed).symm.trans ran
            exact storable.transition rfl _

end Calls

/-! ## Statements -/

section Statements

variable {androidMCompat : Bool} {p next : Policy}

theorem Storable.builtinStep (storable : Storable androidMCompat p) {stale : UInt16 × UInt16}
    {step : BuiltinStep} (checks : step.checksVersion = true)
    (ran : step.run stale p = some next) : Storable androidMCompat next := by
  let Inv := fun q : Policy => Storable androidMCompat q ∧ q.policyvers = p.policyvers
  let Cond := fun (invocation : Invocation) (_ : Policy) =>
    ¬IsXperm invocation.call ∨ versionXpermsIoctl ≤ p.policyvers
  have preserved : ∀ invocation q after, Inv q → Cond invocation q →
      Magiskpolicy.perform invocation q = some after → Inv after := by
    rintro invocation q after ⟨storableBefore, sameVersion⟩ allowed performed
    have versionAllows : VersionAllows invocation q := by
      intro action s t c range symbols isCall _ _
      rcases allowed with notXperm | recent
      · rw [isCall] at notXperm
        exact absurd trivial notXperm
      · exact sameVersion ▸ recent
    rcases perform_eq_some performed with ⟨result, executed⟩
    exact ⟨storableBefore.perform versionAllows performed,
      (executes_of_execute executed).policyvers_eq.trans sameVersion⟩
  have allAllowed : ∀ invocation, invocation ∈ (step.selected p).map (fun call =>
      Invocation.mk call stale) → ∀ q, Cond invocation q := by
    intro invocation member q
    rcases List.mem_map.mp member with ⟨call, selected, rfl⟩
    exact selected_checked checks selected
  exact (runSteps_invariant preserved _ ⟨storable, rfl⟩ (along_of_forall allAllowed p) ran).1

theorem Storable.statement (storable : Storable androidMCompat p) {statement : Statement}
    (allowed : statement.VersionAllows p) (performed : statement.perform p = some next) :
    Storable androidMCompat next := by
  cases statement with
  | call invocation => exact storable.perform allowed performed
  | minRules stale =>
      have allCheck : minRules.all BuiltinStep.checksVersion = true := by decide +kernel
      have checked : ∀ step, step ∈ minRules → ∀ _ : Policy, step.checksVersion = true :=
        fun step member _ => List.all_eq_true.mp allCheck step member
      exact runSteps_invariant (fun _ _ _ holds checks stepped =>
        Storable.builtinStep holds checks stepped) minRules storable
        (along_of_forall checked p) performed

theorem Storable.statements {last : Policy} (storable : Storable androidMCompat p)
    {statements : List Statement} (allowed : Along Statement.perform Statement.VersionAllows
      statements p) (ran : runSteps Statement.perform statements p = some last) :
    Storable androidMCompat last :=
  runSteps_invariant (fun _ _ _ holds allows performed => holds.statement allows performed)
    statements storable allowed ran

/-! ## Files -/

/-- The rules say the same: equal vectors and types, and the same ioctl commands. -/
structure SameRules (first second : Avtab) : Prop where
  vectors : ∀ key, key.specified.isXperms = false →
    (avtabSearch first key).map (·.data) = (avtabSearch second key).map (·.data)
  commands : ∀ key, key.specified.isXperms = true → ∀ x,
    Covered first key x ↔ Covered second key x

theorem sameRules_of_kept {first second : Avtab}
    (kept : ∀ key, first.data key = ((second.data key).map (keptDatum key.specified)).reverse) :
    SameRules first second := by
  constructor
  · intro key plain
    have atMostOne := second.length_data_le_one key plain
    rw [Avtab.search_eq_head?, Avtab.search_eq_head?, kept]
    cases stored : second.data key with
    | nil => rfl
    | cons datum rest =>
        have single : rest = [] := by
          rw [stored, List.length_cons] at atMostOne
          exact List.length_eq_zero_iff.mp (by omega)
        rw [single]
        simp [keptDatum, plain]
  · intro key extended x
    have sameXperms : ∀ datum, (keptDatum key.specified datum).xperms = datum.xperms := by
      intro datum
      rw [keptDatum, if_pos extended]
    simp only [Covered, kept, List.mem_reverse, List.mem_map]
    constructor
    · rintro ⟨_, ⟨datum, member, rfl⟩, covers⟩
      exact ⟨datum, member, sameXperms datum ▸ covers⟩
    · rintro ⟨datum, member, covers⟩
      exact ⟨_, ⟨datum, member, rfl⟩, (sameXperms datum).symm ▸ covers⟩

theorem nodes_ne_nil_iff {a : Avtab} : a.nodes ≠ [] ↔ ∃ key, a.data key ≠ [] := by
  constructor
  · intro someNode
    rcases List.exists_mem_of_ne_nil _ someNode with ⟨cur, member⟩
    refine ⟨⟨cur.key, cur.tag⟩, ?_⟩
    have inData : cur.datum ∈ a.data ⟨cur.key, cur.tag⟩ := by
      rw [← a.dataOf_nodes, mem_dataOf]
      exact member
    exact List.ne_nil_of_mem inData
  · rintro ⟨key, stored⟩
    rcases List.exists_mem_of_ne_nil _ stored with ⟨datum, member⟩
    rw [← a.dataOf_nodes key, mem_dataOf] at member
    exact List.ne_nil_of_mem member

theorem storable_of_loaded {compatAfter : Bool} {text rest : List Byte}
    (loaded : avtabRead p.policyvers false text = .ok (some (p.teAvtab, compatAfter), rest)) :
    Storable compatAfter p := by
  rcases accepts_avtabRead p.policyvers false text _ rest loaded with ⟨_, -, holds⟩
  rcases holds p.teAvtab compatAfter rfl with ⟨someNode, -, step, loadedAll⟩
  refine ⟨?_, nodes_ne_nil_iff.mp someNode, fun key datum member => ?_⟩
  · rintro rfl
    rcases step with impossible | ⟨-, -, version⟩
    · cases impossible
    · exact version
  · rw [← p.teAvtab.dataOf_nodes key, mem_dataOf] at member
    exact (loadedAll _ member).1

theorem Storable.readsBack (storable : Storable androidMCompat p)
    (supported : versionAvtab ≤ p.policyvers) (countFits : p.teAvtab.nodes.length < 2 ^ 32) :
    ∃ bytes,
      avtabWrite ⟨p.policyvers, .selinux, androidMCompat, supported⟩ p.teAvtab = some bytes ∧
      (Recognised p.policyvers androidMCompat false p.teAvtab → ∃ again compat,
        Decodes id (avtabRead p.policyvers false) bytes (some (again, compat)) ∧
        SameRules again p.teAvtab) := by
  have readable : ∀ cur, cur ∈ p.teAvtab.nodes →
      Readable p.policyvers androidMCompat cur := by
    intro cur member
    apply storable.readable ⟨cur.key, cur.tag⟩ cur.datum
    rw [← p.teAvtab.dataOf_nodes, mem_dataOf]
    exact member
  have written := avtabWrite_eq_some (p := ⟨p.policyvers, .selinux, androidMCompat, supported⟩)
    (a := p.teAvtab) |>.mpr
    ⟨fun cur member extended => ⟨(readable cur member extended).1, rfl⟩, rfl⟩
  refine ⟨_, written, fun recognised => ?_⟩
  rcases avtabRead_avtabWrite written (nodes_ne_nil_iff.mpr storable.someRule) countFits readable
    recognised with ⟨again, decodes, same⟩
  exact ⟨again, _, decodes, sameRules_of_kept same⟩

/-- The rules that a process leaves after loading a policy and executing statements that the
version of the policy allows: they can be written, and a fresh process that recognises their
format reads rules that say the same. -/
theorem statements_survive_storing {compatAfter : Bool} {text rest : List Byte}
    (loaded : avtabRead p.policyvers false text = .ok (some (p.teAvtab, compatAfter), rest))
    {statements : List Statement} {last : Policy}
    (allowed : Along Statement.perform Statement.VersionAllows statements p)
    (ran : runSteps Statement.perform statements p = some last)
    (supported : versionAvtab ≤ last.policyvers)
    (countFits : last.teAvtab.nodes.length < 2 ^ 32) :
    ∃ bytes,
      avtabWrite ⟨last.policyvers, .selinux, compatAfter, supported⟩ last.teAvtab = some bytes ∧
      (Recognised last.policyvers compatAfter false last.teAvtab → ∃ again compat,
        Decodes id (avtabRead last.policyvers false) bytes (some (again, compat)) ∧
        SameRules again last.teAvtab) :=
  ((storable_of_loaded loaded).statements allowed ran).readsBack supported countFits

end Statements

def loadedPolicy : Policy :=
  { shellPolicy 30 with
    teAvtab :=
      ((tableRead (avtabRead 30 false twoRulesText)).map Prod.fst).getD (Avtab.empty 0) }

def twoStatements : List Statement :=
  [.call ⟨allowxperm "shell" "domain" "file" "0x5400-0x5500", (0, 0)⟩,
    .call ⟨allow "shell" "domain" "file" (some "read"), (0, 0)⟩]

theorem loadedPolicy_policyvers : loadedPolicy.policyvers = 30 := rfl

theorem loadedPolicy_read : avtabRead loadedPolicy.policyvers false twoRulesText =
    .ok (some (loadedPolicy.teAvtab, true), []) := by
  rw [loadedPolicy_policyvers]
  have reads : (tableRead (avtabRead 30 false twoRulesText)).any (·.2) = true := by
    decide +kernel
  rcases (Option.any_eq_true _ _).mp reads with ⟨⟨table, compat⟩, isRead, isCompat⟩
  cases isCompat
  have isTable : loadedPolicy.teAvtab = table := by simp only [loadedPolicy, isRead]; rfl
  rw [isTable, tableRead_eq_some_iff.mp isRead]

theorem twoStatements_survive_storing : ∃ last bytes again compat,
    ∃ supported : versionAvtab ≤ last.policyvers,
    runSteps Statement.perform twoStatements loadedPolicy = some last ∧
      avtabWrite ⟨last.policyvers, .selinux, true, supported⟩ last.teAvtab = some bytes ∧
      Decodes id (avtabRead last.policyvers false) bytes (some (again, compat)) ∧
      SameRules again last.teAvtab := by
  have recent : versionXpermsIoctl ≤ loadedPolicy.policyvers := Nat.le_refl 30
  have allowed : Along Statement.perform Statement.VersionAllows twoStatements loadedPolicy := by
    refine ⟨fun _ _ _ _ _ _ _ _ _ => recent, fun next _ => ⟨?_, fun _ _ => trivial⟩⟩
    intro action s t c range symbols isCall
    cases isCall
  have runs : (runSteps Statement.perform twoStatements loadedPolicy).any (fun last =>
      last.teAvtab.nodes.length < 2 ^ 32 ∧ last.policyvers = versionIoctl ∧
        (last.teAvtab.nodes.find? (·.tag.isXperms)).all (fun first => decide (Announces first))) =
      true := by decide +kernel
  rcases (Option.any_eq_true _ _).mp runs with ⟨last, ran, holds⟩
  rcases of_decide_eq_true holds with ⟨countFits, version, announces⟩
  have supported : versionAvtab ≤ last.policyvers := version ▸ by decide
  have recognised : Recognised last.policyvers true false last.teAvtab := by
    intro first isFirst
    rw [isFirst] at announces
    exact Or.inr ⟨rfl, version, of_decide_eq_true announces⟩
  rcases statements_survive_storing loadedPolicy_read allowed ran supported countFits with
    ⟨bytes, written, restores⟩
  rcases restores recognised with ⟨again, compat, decodes, same⟩
  exact ⟨last, bytes, again, compat, supported, ran, written, decodes, same⟩

end SuBinary.Magiskpolicy
