import SuBinary.Magiskpolicy.OperationEffect
import SuBinary.Magiskpolicy.Rules

/-! # Extended permissions and the version of the policy

The writer refuses a policy with extended-permission rules whose version is too
old for them. The built-in rules look at the version, statements do not.
-/

namespace SuBinary.Magiskpolicy

open SuBinary Sepol

/-! ## The condition of the writer -/

/-- What `avtab_write_item` requires of every node: no extended rule unless the
version has them. -/
def XpermsWritable (p : Policy) : Prop :=
  ∀ key, key.specified.isXperms = true → p.teAvtab.data key ≠ [] →
    versionXpermsIoctl ≤ p.policyvers

/-- An extended-permission call comes only where the version has them, or finds
no source, target and class to work on. -/
def VersionAllows (invocation : Invocation) (p : Policy) : Prop :=
  ∀ action s t c range symbols, invocation.call = .xperm action s t c range →
    xpermSymbols p.toPolicydb s t c = .ok symbols →
    symbols.keys p.toPolicydb action.effect ≠ [] → versionXpermsIoctl ≤ p.policyvers

/-! ## Calls -/

theorem createDomain_frame {p next : Policy} {d : CString} {result : Nat}
    (fresh : hashtabSearch p.pTypes.table d = none)
    (ran : createDomain p (some d) = some (next, result)) :
    next.teAvtab = p.teAvtab ∧ next.policyvers = p.policyvers := by
  have reindexed : (reindex (declareType p d).1).1.teAvtab = p.teAvtab ∧
      (reindex (declareType p d).1).1.policyvers = p.policyvers := by
    rcases reindex_frame (declareType p d).1 with ⟨_, _, _, _, framed⟩
    rcases declareType_fresh fresh with ⟨_, -, declared⟩
    rw [framed, declared]
    exact ⟨rfl, rfl⟩
  rw [createDomain_fresh fresh] at ran
  split at ran
  · cases ran
    exact reindexed
  · rcases Option.map_eq_some_iff.mp ran with ⟨entered, intoRoles, changed⟩
    rcases Option.bind_eq_some_iff.mp intoRoles with ⟨table, -, isEntered⟩
    have maps := changesMaps_setAttr entered (ascii "domain") (p.pTypes.nprim + 1)
    rw [changed] at maps
    rw [maps.teAvtab_eq, maps.policyvers_eq]
    cases isEntered
    exact reindexed

theorem Executes.policyvers_eq {p next : Policy} {call : PolicyCall}
    (executes : Executes p call next) : next.policyvers = p.policyvers := by
  cases executes with
  | rules teAvtab permissiveMap _ => rfl
  | sets domainS attr domain table isCall found =>
      exact (changesMaps_setAttr p attr domain.value).policyvers_eq
  | creates d isNew next result ran => exact (createDomain_frame isNew.2 ran).2
  | named pTypes filenameTrans isNamed => rfl

theorem Executes.data_eq {p next : Policy} {call : PolicyCall} (executes : Executes p call next)
    (notXperm : ¬IsXperm call) {key : AvtabKey} (isXperms : key.specified.isXperms = true) :
    next.teAvtab.data key = p.teAvtab.data key := by
  cases executes with
  | rules teAvtab permissiveMap xpermsKept => exact xpermsKept notXperm key isXperms
  | sets domainS attr domain table isCall found =>
      rw [(changesMaps_setAttr p attr domain.value).teAvtab_eq]
  | creates d isNew next result ran => rw [(createDomain_frame isNew.2 ran).1]
  | named pTypes filenameTrans isNamed => rfl

theorem xpermsWritable_of_not_xperm {p next : Policy} {call : PolicyCall}
    (writable : XpermsWritable p) (executes : Executes p call next) (notXperm : ¬IsXperm call) :
    XpermsWritable next := by
  intro key isXperms stored
  rw [executes.data_eq notXperm isXperms] at stored
  rw [executes.policyvers_eq]
  exact writable key isXperms stored

theorem data_addXpermRule {db : Policydb} {s t c : Option CString} {symbols : XpermSymbols}
    (found : xpermSymbols db s t c = .ok symbols) (stale : UInt16 × UInt16)
    (range : Option CString) (effect : AvtabSpecified) (key : AvtabKey) :
    (addXpermRule stale s t c range effect false db).1.teAvtab.data key = [] ↔
      key ∉ symbols.keys db effect ∧ db.teAvtab.data key = [] := by
  rw [addXpermRule_eq_editKeys found, data_editXpermKeys]
  by_cases visited : key ∈ symbols.keys db effect
  · simp [visited]
  · simp [visited]

theorem xpermsWritable_perform_iff (invocation : Invocation) (p : Policy)
    (writable : XpermsWritable p) :
    (∀ next, perform invocation p = some next → XpermsWritable next) ↔
      VersionAllows invocation p := by
  by_cases isXperm : IsXperm invocation.call
  · rcases invocation with ⟨call, stale⟩
    cases call with
    | rule _ _ _ _ _ => cases isXperm
    | attradd _ _ => cases isXperm
    | typeState _ _ => cases isXperm
    | typetrans _ _ _ _ _ => cases isXperm
    | xperm action s t c range =>
        have performed : perform ⟨.xperm action s t c range, stale⟩ p =
            some { p with
              teAvtab := (addXpermRule stale s t c range action.effect false
                p.toPolicydb).1.teAvtab } := rfl
        have isXperms : action.effect.isXperms = true := by cases action <;> rfl
        rw [performed]
        constructor
        · intro kept action' s' t' c' range' symbols isCall found reached
          cases isCall
          rcases List.exists_mem_of_ne_nil _ reached with ⟨key, member⟩
          have kind : key.specified = action.effect := specified_of_mem_ruleKeys member
          have writableAfter := kept _ rfl
          apply writableAfter key (kind ▸ isXperms)
          rw [Ne, data_addXpermRule found]
          exact fun both => both.1 member
        · intro allowed next isNext key kind stored
          cases isNext
          cases found : xpermSymbols p.toPolicydb s t c with
          | error error =>
              rw [addXpermRule_unresolved found] at stored
              exact writable key kind stored
          | ok symbols =>
              rw [Ne, data_addXpermRule found] at stored
              by_cases visited : key ∈ symbols.keys p.toPolicydb action.effect
              · exact allowed action s t c range symbols rfl found (List.ne_nil_of_mem visited)
              · exact writable key kind fun empty => stored ⟨visited, empty⟩
  · apply iff_of_true
    · intro next performed
      rcases perform_eq_some performed with ⟨result, ran⟩
      exact xpermsWritable_of_not_xperm writable (executes_of_execute ran) isXperm
    · intro action s t c range symbols isCall
      rw [isCall] at isXperm
      exact absurd trivial isXperm

/-! ## Built-in rules -/

/-- A step whose extended-permission calls are all behind a check of the
version. -/
def BuiltinStep.checksVersion : BuiltinStep → Bool
  | .call only => decide (¬IsXperm only)
  | .ifExists _ calls => calls.all fun call => decide (¬IsXperm call)
  | .unlessExists _ calls => calls.all fun call => decide (¬IsXperm call)
  | .ifVersion policyvers _ => decide (versionXpermsIoctl ≤ policyvers)

theorem selected_checked {step : BuiltinStep} (checks : step.checksVersion = true) {p : Policy}
    {call : PolicyCall} (member : call ∈ step.selected p) :
    ¬IsXperm call ∨ versionXpermsIoctl ≤ p.policyvers := by
  cases step with
  | call only =>
      cases List.mem_singleton.mp member
      exact Or.inl (of_decide_eq_true checks)
  | ifExists source calls =>
      rw [BuiltinStep.selected] at member
      split at member
      · exact Or.inl (of_decide_eq_true (List.all_eq_true.mp checks call member))
      · cases member
  | unlessExists source calls =>
      rw [BuiltinStep.selected] at member
      split at member
      · cases member
      · exact Or.inl (of_decide_eq_true (List.all_eq_true.mp checks call member))
  | ifVersion policyvers calls =>
      rw [BuiltinStep.selected] at member
      split at member
      · rename_i recent
        exact Or.inr (le_trans (of_decide_eq_true checks) recent)
      · cases member

theorem xpermsWritable_builtinStep {stale : UInt16 × UInt16} {step : BuiltinStep}
    (checks : step.checksVersion = true) {p next : Policy} (writable : XpermsWritable p)
    (ran : step.run stale p = some next) : XpermsWritable next := by
  let Inv := fun q : Policy => XpermsWritable q ∧ q.policyvers = p.policyvers
  let Cond := fun (invocation : Invocation) (_ : Policy) =>
    ¬IsXperm invocation.call ∨ versionXpermsIoctl ≤ p.policyvers
  have preserved : ∀ invocation q after, Inv q → Cond invocation q →
      perform invocation q = some after → Inv after := by
    rintro invocation q after ⟨writableBefore, sameVersion⟩ allowed performed
    rcases perform_eq_some performed with ⟨result, executed⟩
    have executes := executes_of_execute executed
    have versionAfter := executes.policyvers_eq.trans sameVersion
    rcases allowed with notXperm | recent
    · exact ⟨xpermsWritable_of_not_xperm writableBefore executes notXperm, versionAfter⟩
    · exact ⟨fun _ _ _ => versionAfter ▸ recent, versionAfter⟩
  have allAllowed : ∀ invocation, invocation ∈ (step.selected p).map (fun call =>
      Invocation.mk call stale) → ∀ q, Cond invocation q := by
    intro invocation member q
    rcases List.mem_map.mp member with ⟨call, selected, rfl⟩
    exact selected_checked checks selected
  exact (runSteps_invariant preserved _ ⟨writable, rfl⟩ (along_of_forall allAllowed p) ran).1

/-- The built-in rules keep a policy of any version writable. -/
theorem xpermsWritable_sepolMinRules {stale : UInt16 × UInt16} {p next : Policy}
    (writable : XpermsWritable p) (ran : sepolMinRules stale p = some next) :
    XpermsWritable next := by
  have allCheck : minRules.all BuiltinStep.checksVersion = true := by decide +kernel
  have allowed : ∀ step, step ∈ minRules → ∀ _ : Policy, step.checksVersion = true :=
    fun step member _ => List.all_eq_true.mp allCheck step member
  exact runSteps_invariant (fun _ _ _ holds checks stepped =>
    xpermsWritable_builtinStep checks holds stepped) minRules writable
    (along_of_forall allowed p) ran

/-! ## Sequences of statements -/

/-- A call that a statement makes, or the whole of the built-in rules. -/
inductive Statement
  | call (invocation : Invocation)
  | minRules (stale : UInt16 × UInt16)

def Statement.perform : Statement → Policy → Option Policy
  | .call invocation, p => Magiskpolicy.perform invocation p
  | .minRules stale, p => sepolMinRules stale p

/-- The built-in rules are allowed on every version. -/
def Statement.VersionAllows : Statement → Policy → Prop
  | .call invocation, p => Magiskpolicy.VersionAllows invocation p
  | .minRules _, _ => True

/-- A writable policy stays writable through a sequence of statements if and
only if the version allows each of them. -/
theorem xpermsWritable_throughout_iff (p : Policy) (writable : XpermsWritable p)
    (statements : List Statement) :
    Throughout Statement.perform XpermsWritable statements p ↔
      Along Statement.perform Statement.VersionAllows statements p := by
  refine throughout_iff_along (fun statement p writable => ?_) statements writable
  cases statement with
  | call invocation => exact xpermsWritable_perform_iff invocation p writable
  | minRules stale =>
      exact iff_of_true (fun next ran => xpermsWritable_sepolMinRules writable ran) trivial

theorem xpermsWritable_shellPolicy (policyvers : Nat) : XpermsWritable (shellPolicy policyvers) :=
  fun _ _ stored => absurd rfl stored

/-- An extended permission and then the built-in rules, on version 30. -/
theorem xpermsWritable_version_30 :
    Throughout Statement.perform XpermsWritable
      [.call ⟨allowxperm "shell" "domain" "file" "0x5400", (0, 0)⟩, .minRules (0, 0)]
      (shellPolicy 30) := by
  rw [xpermsWritable_throughout_iff (shellPolicy 30) (xpermsWritable_shellPolicy 30)]
  have recent : versionXpermsIoctl ≤ (shellPolicy 30).policyvers := Nat.le_refl 30
  exact ⟨fun _ _ _ _ _ _ _ _ _ => recent, fun _ _ => ⟨trivial, fun _ _ => trivial⟩⟩

/-- On version 26, `allowxperm shell domain file 0x5400` succeeds and makes a
rule that cannot be written. -/
theorem allowxperm_not_writable :
    XpermsWritable (shellPolicy 26) ∧ ∃ next,
      execute ⟨allowxperm "shell" "domain" "file" "0x5400", (0, 0)⟩ (shellPolicy 26) =
        some (next, 0) ∧ ¬XpermsWritable next := by
  refine ⟨xpermsWritable_shellPolicy 26, _, rfl, fun writable => ?_⟩
  have version := writable (ruleKey 1 2 1 .xpermsAllowed) rfl (by decide +kernel)
  exact absurd version (by decide)

end SuBinary.Magiskpolicy
