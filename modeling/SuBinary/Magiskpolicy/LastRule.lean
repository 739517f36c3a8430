import SuBinary.Magiskpolicy.EffectiveAccess
import SuBinary.Magiskpolicy.Repatching

/-! # Scripts of statements

In a script the last rule statement about a bit of an access vector decides it. Only the creation
of types and named transitions change the tables in which later statements look up their names.
-/

namespace SuBinary.Magiskpolicy

open SuBinary Sepol

/-! ## What a call writes -/

/-- What a call makes of a bit of the vector under a key; `none` if it is not about the bit. -/
def writtenBit (db : Policydb) (key : AvtabKey) (bit : Nat) : PolicyCall → Option Bool
  | .rule action s t c perm =>
      if (ruleMasks db s t c perm action.effect.1 key).any (·.getLsbD bit) then
        some !action.effect.2
      else none
  | _ => none

theorem storedVector_addRule (db : Policydb) (s t c p : Option CString) (effect : AvtabSpecified)
    (not : Bool) (key : AvtabKey) :
    storedVector (addRule db s t c p effect not).1.teAvtab key =
      ((ruleMasks db s t c p effect key).map fun mask => (mask, not)).foldl assignBits
        (storedVector db.teAvtab key) := by
  rw [← headD_data_eq_storedVector, ← headD_data_eq_storedVector, data_addRule_edits]
  generalize (ruleMasks db s t c p effect key).map _ = edits
  generalize db.teAvtab.data key = data
  induction edits generalizing data with
  | nil => rfl
  | cons edit rest induction =>
      rw [List.foldl_cons, List.foldl_cons, induction]
      rfl

theorem assignBits_getLsbD (vector mask : BitVec 32) (clears : Bool) {bit : Nat}
    (inside : bit < 32) :
    (assignBits vector (mask, clears)).getLsbD bit =
      if mask.getLsbD bit then !clears else vector.getLsbD bit := by
  cases clears with
  | false =>
      simp only [assignBits, Bool.false_eq_true, if_false, BitVec.getLsbD_or]
      cases mask.getLsbD bit <;> simp
  | true =>
      simp only [assignBits, if_true, BitVec.getLsbD_and, BitVec.getLsbD_not, inside]
      cases mask.getLsbD bit <;> simp

theorem addRule_writtenBit (db : Policydb) (action : RuleAction) (s t c p : Option CString)
    (key : AvtabKey) {bit : Nat} (inside : bit < 32) :
    (storedVector (addRule db s t c p action.effect.1 action.effect.2).1.teAvtab key).getLsbD bit =
      (writtenBit db key bit (.rule action s t c p)).getD
        ((storedVector db.teAvtab key).getLsbD bit) := by
  rw [storedVector_addRule, writtenBit, ruleMasks]
  cases ruleSymbols db s t c p with
  | error error => rfl
  | ok symbols =>
      dsimp only
      split
      · rw [List.map_singleton, List.foldl_cons, List.foldl_nil, assignBits_getLsbD _ _ _ inside,
          List.any_cons, List.any_nil, Bool.or_false]
        cases (permMask symbols.perm).getLsbD bit with
        | false => rfl
        | true => rfl
      · rfl

/-- A statement is about the bit of a key when its names resolve to the key and the bit. -/
structure IsAboutBit (db : Policydb) (action : RuleAction) (s t c p : Option CString)
    (key : AvtabKey) (bit : Nat) : Prop where
  resolves : ∃ symbols, ruleSymbols db s t c p = .ok symbols
  isMatch : MatchesRule db s t c action.effect.1 key
  namesBit : NamesBit db c p bit

theorem permMask_getLsbD {db : Policydb} (fit : db.ValuesFit) {s t c p : Option CString}
    {symbols : RuleSymbols} (found : ruleSymbols db s t c p = .ok symbols) {bit : Nat}
    (inside : bit < 32) :
    (permMask symbols.perm).getLsbD bit = true ↔ NamesBit db c p bit := by
  rcases editVector_bit symbols.perm false 0 (perm_fits fit found) bit inside with ⟨sets, keeps⟩
  rw [← affectsBit_iff_namesBit found, permMask]
  constructor
  · intro isSet
    by_contra other
    rw [keeps other] at isSet
    cases isSet.symm.trans BitVec.getLsbD_zero
  · exact sets

theorem writtenBit_eq_some_iff {db : Policydb} (fit : db.ValuesFit) (key : AvtabKey) {bit : Nat}
    (inside : bit < 32) (call : PolicyCall) (value : Bool) :
    writtenBit db key bit call = some value ↔
      ∃ action s t c p, call = .rule action s t c p ∧ IsAboutBit db action s t c p key bit ∧
        value = !action.effect.2 := by
  constructor
  · intro written
    cases call with
    | rule action s t c p =>
        rw [writtenBit, ruleMasks] at written
        cases found : ruleSymbols db s t c p with
        | error error =>
            rw [found] at written
            cases written
        | ok symbols =>
            rw [found] at written
            by_cases visited : key ∈ symbols.keys db action.effect.1
            · by_cases isSet : (permMask symbols.perm).getLsbD bit = true
              · simp only [visited, if_true, List.any_cons, isSet, Bool.true_or] at written
                cases written
                exact ⟨action, s, t, c, p, rfl,
                  ⟨⟨symbols, found⟩, (mem_ruleKeys_iff fit found _ key).mp visited,
                    (permMask_getLsbD fit found inside).mp isSet⟩, rfl⟩
              · simp [visited, isSet] at written
            · simp [visited] at written
    | xperm action s t c range => cases written
    | attradd s a => cases written
    | typeState action s => cases written
    | typetrans s t c d o => cases written
  · rintro ⟨action, s, t, c, p, rfl, ⟨⟨symbols, found⟩, isMatch, namesBit⟩, rfl⟩
    have visited := (mem_ruleKeys_iff fit found _ key).mpr isMatch
    have isSet := (permMask_getLsbD fit found inside).mpr namesBit
    rw [writtenBit, ruleMasks, found]
    simp [visited, isSet]

/-! ## Calls that leave the tables alone -/

def KeepsSymbols : PolicyCall → Prop
  | .typeState .create _ => False
  | .typetrans _ _ _ _ (some _) => False
  | _ => True

instance : DecidablePred KeepsSymbols
  | .rule _ _ _ _ _ => .isTrue trivial
  | .xperm _ _ _ _ _ => .isTrue trivial
  | .attradd _ _ => .isTrue trivial
  | .typeState .create _ => .isFalse id
  | .typeState .permissive _ => .isTrue trivial
  | .typeState .enforce _ => .isTrue trivial
  | .typetrans _ _ _ _ none => .isTrue trivial
  | .typetrans _ _ _ _ (some _) => .isFalse id

theorem KeepsTables.refl (p : Policy) : KeepsTables p p := ⟨⟨rfl, rfl, rfl, rfl⟩, rfl, rfl⟩

section Calls

variable {p next : Policy}

theorem keepsTables_of_grants {invocation : Invocation} (grants : GrantingCall invocation.call)
    (performed : perform invocation p = some next) : KeepsTables p next := by
  have survives : ¬Crashes p invocation.call := by
    intro crashes
    rw [perform_crashes crashes] at performed
    cases performed
  rcases perform_adds p grants survives with ⟨added, performedToo, same, -⟩
  cases performedToo.symm.trans performed
  rcases perform_eq_some performed with ⟨result, ran⟩
  have executes := executes_of_execute ran
  have noNew : ∀ d, ¬CreatesNew p d invocation.call := by
    rintro d ⟨isCreate, -⟩
    rw [isCreate] at grants
    exact grants
  exact ⟨same, executes.roles_eq noNew, executes.policyvers_eq⟩

theorem keepsTables_perform {invocation : Invocation} (keeps : KeepsSymbols invocation.call)
    (performed : perform invocation p = some next) : KeepsTables p next := by
  rcases invocation with ⟨call, stale⟩
  cases call with
  | rule action s t c perm =>
      cases performed
      exact ⟨⟨rfl, rfl, rfl, rfl⟩, rfl, rfl⟩
  | xperm action s t c range =>
      cases performed
      exact ⟨⟨rfl, rfl, rfl, rfl⟩, rfl, rfl⟩
  | attradd s a => exact @keepsTables_of_grants p next ⟨.attradd s a, stale⟩ trivial performed
  | typeState action s =>
      cases action with
      | create => cases keeps
      | permissive =>
          exact @keepsTables_of_grants p next ⟨.typeState .permissive s, stale⟩ trivial performed
      | enforce =>
          rcases perform_eq_some performed with ⟨result, ran⟩
          rcases setDomainState_cases p s false with ⟨map, status, isMap, -⟩
          cases isMap.symm.trans (Option.some.inj ran)
          exact ⟨⟨rfl, rfl, rfl, rfl⟩, rfl, rfl⟩
  | typetrans s t c d o =>
      cases o with
      | some o => cases keeps
      | none =>
          rcases perform_eq_some performed with ⟨result, ran⟩
          rcases addTransition_cases p s t c d with ⟨error, -, changed⟩ | ⟨symbols, -, changed⟩
          · cases (congrArg some changed).symm.trans ran
            exact KeepsTables.refl p
          · cases (congrArg some changed).symm.trans ran
            exact ⟨⟨rfl, rfl, rfl, rfl⟩, rfl, rfl⟩

theorem storedVector_congr {first second : Avtab} {key : AvtabKey}
    (same : first.data key = second.data key) :
    storedVector first key = storedVector second key := by
  rw [← headD_data_eq_storedVector, ← headD_data_eq_storedVector, same]

theorem data_perform_of_not_rule {invocation : Invocation} (keeps : KeepsSymbols invocation.call)
    (notRule : ∀ action s t c perm, invocation.call ≠ .rule action s t c perm)
    (performed : perform invocation p = some next) {key : AvtabKey}
    (isAv : key.specified.isAv = true) : next.teAvtab.data key = p.teAvtab.data key := by
  rcases perform_eq_some performed with ⟨result, ran⟩
  rcases invocation with ⟨call, stale⟩
  cases call with
  | rule action s t c perm => exact absurd rfl (notRule action s t c perm)
  | xperm action s t c range =>
      cases ran
      apply data_addXpermRule_of_ne p.toPolicydb
      intro sameKind
      rw [sameKind] at isAv
      cases action <;> cases isAv
  | attradd s a =>
      rcases addTypeattribute_cases ran with
        ⟨rfl, -⟩ | ⟨domainS, attr, domain, table, -, -, -, rfl, -⟩
      · rfl
      · rw [(changesMaps_setAttr p attr domain.value).teAvtab_eq]
  | typeState action s =>
      cases action with
      | create => cases keeps
      | permissive =>
          rcases setDomainState_cases p s true with ⟨map, status, isMap, -⟩
          cases isMap.symm.trans (Option.some.inj ran)
          rfl
      | enforce =>
          rcases setDomainState_cases p s false with ⟨map, status, isMap, -⟩
          cases isMap.symm.trans (Option.some.inj ran)
          rfl
  | typetrans s t c d o =>
      cases o with
      | some o => cases keeps
      | none =>
          rcases addTransition_cases p s t c d with ⟨error, -, changed⟩ | ⟨symbols, -, changed⟩
          · cases (congrArg some changed).symm.trans ran
            rfl
          · cases (congrArg some changed).symm.trans ran
            rw [Avtab.data_upsert, if_neg]
            rintro rfl
            cases isAv

theorem KeepsTables.writtenBit_eq (keeps : KeepsTables p next) (key : AvtabKey) (bit : Nat) :
    writtenBit next.toPolicydb key bit = writtenBit p.toPolicydb key bit := by
  funext call
  cases call with
  | rule action s t c perm => simp only [writtenBit, keeps.ruleMasks_eq]
  | xperm action s t c range => rfl
  | attradd s a => rfl
  | typeState action s => rfl
  | typetrans s t c d o => rfl

theorem perform_writtenBit {invocation : Invocation} (keeps : KeepsSymbols invocation.call)
    (performed : perform invocation p = some next) {key : AvtabKey}
    (isAv : key.specified.isAv = true) {bit : Nat} (inside : bit < 32) :
    (storedVector next.teAvtab key).getLsbD bit =
      (writtenBit p.toPolicydb key bit invocation.call).getD
        ((storedVector p.teAvtab key).getLsbD bit) := by
  by_cases isRule : ∃ action s t c perm, invocation.call = .rule action s t c perm
  · rcases isRule with ⟨action, s, t, c, perm, isCall⟩
    rcases invocation with ⟨call, stale⟩
    cases isCall
    cases performed
    exact addRule_writtenBit p.toPolicydb action s t c perm key inside
  · have notRule : ∀ action s t c perm, invocation.call ≠ .rule action s t c perm :=
      fun action s t c perm isCall => isRule ⟨action, s, t, c, perm, isCall⟩
    have notWritten : writtenBit p.toPolicydb key bit invocation.call = none := by
      rw [writtenBit.eq_def]
      split
      · rename_i isCall
        exact absurd isCall (notRule _ _ _ _ _)
      · rfl
    rw [notWritten, Option.getD_none,
      storedVector_congr (data_perform_of_not_rule keeps notRule performed isAv)]

end Calls

/-! ## Scripts -/

theorem storedVector_runCalls {p last : Policy} {script : List Invocation}
    (keeps : ∀ invocation, invocation ∈ script → KeepsSymbols invocation.call)
    (ran : runCalls script p = some last) {key : AvtabKey} (isAv : key.specified.isAv = true)
    {bit : Nat} (inside : bit < 32) :
    KeepsTables p last ∧ (storedVector last.teAvtab key).getLsbD bit =
      (script.filterMap fun invocation =>
        writtenBit p.toPolicydb key bit invocation.call).getLast?.getD
          ((storedVector p.teAvtab key).getLsbD bit) := by
  apply @runSteps_lastWrite _ _ _ _ (KeepsTables p) _ _ _ _ _ _ (KeepsTables.refl p) ran
  intro invocation member state next kept performed
  have keepsNext := keepsTables_perform (keeps invocation member) performed
  refine ⟨kept.transitive keepsNext, ?_⟩
  rw [perform_writtenBit (keeps invocation member) performed isAv inside, kept.writtenBit_eq]

def CallIsAboutBit (db : Policydb) (key : AvtabKey) (bit : Nat) : PolicyCall → Prop
  | .rule action s t c p => IsAboutBit db action s t c p key bit
  | _ => False

theorem writtenBit_eq_none_iff {db : Policydb} (fit : db.ValuesFit) (key : AvtabKey) {bit : Nat}
    (inside : bit < 32) (call : PolicyCall) :
    writtenBit db key bit call = none ↔ ¬CallIsAboutBit db key bit call := by
  rw [Option.eq_none_iff_forall_ne_some]
  simp only [ne_eq, writtenBit_eq_some_iff fit key inside]
  constructor
  · intro noWrite isAbout
    cases call with
    | rule action s t c p =>
        exact noWrite (!action.effect.2) ⟨action, s, t, c, p, rfl, isAbout, rfl⟩
    | xperm action s t c range => cases isAbout
    | attradd s a => cases isAbout
    | typeState action s => cases isAbout
    | typetrans s t c d o => cases isAbout
  · rintro notAbout value ⟨action, s, t, c, p, rfl, isAbout, -⟩
    exact notAbout isAbout

/-- In a script that neither creates types nor names transitions, the last rule statement about a
bit of an access vector decides it; a bit that no statement is about stays as it was. -/
theorem last_rule_decides {p last : Policy} (fit : p.toPolicydb.ValuesFit)
    {script : List Invocation}
    (keeps : ∀ invocation, invocation ∈ script → KeepsSymbols invocation.call)
    (ran : runCalls script p = some last) {key : AvtabKey} (isAv : key.specified.isAv = true)
    {bit : Nat} (inside : bit < 32) :
    (∀ front stale action s t c perm back,
      script = front ++ ⟨.rule action s t c perm, stale⟩ :: back →
      IsAboutBit p.toPolicydb action s t c perm key bit →
      (∀ later, later ∈ back → ¬CallIsAboutBit p.toPolicydb key bit later.call) →
      (storedVector last.teAvtab key).getLsbD bit = !action.effect.2) ∧
    ((∀ invocation, invocation ∈ script →
        ¬CallIsAboutBit p.toPolicydb key bit invocation.call) →
      (storedVector last.teAvtab key).getLsbD bit = (storedVector p.teAvtab key).getLsbD bit) := by
  have decides := (storedVector_runCalls keeps ran isAv inside).2
  have silent : ∀ calls : List Invocation,
      (∀ later, later ∈ calls → ¬CallIsAboutBit p.toPolicydb key bit later.call) →
      (calls.filterMap fun invocation =>
        writtenBit p.toPolicydb key bit invocation.call) = [] := by
    intro calls notAbout
    apply List.filterMap_eq_nil_iff.mpr
    intro later member
    exact (writtenBit_eq_none_iff fit key inside later.call).mpr (notAbout later member)
  constructor
  · intro front stale action s t c perm back isScript isAbout notAbout
    have writes := (writtenBit_eq_some_iff fit key inside (.rule action s t c perm)
      (!action.effect.2)).mpr ⟨action, s, t, c, perm, rfl, isAbout, rfl⟩
    rw [decides, isScript, List.filterMap_append, List.filterMap_cons, writes, silent back notAbout,
      List.getLast?_append]
    rfl
  · intro notAbout
    rw [decides, silent script notAbout]
    rfl

/-- `allow` and then `deny` of the same access. -/
theorem last_rule_decides_deny : ∃ last,
    runCalls [⟨allow "shell" "domain" "file" (some "read"), (0, 0)⟩,
      ⟨deny "shell" "domain" "file" "read", (0, 0)⟩] (shellPolicy 30) = some last ∧
    (storedVector last.teAvtab (ruleKey 1 2 1 .allowed)).getLsbD 0 = false := by
  have fit : (shellPolicy 30).toPolicydb.ValuesFit := (shellPolicydb (Avtab.empty 0)).fit
  obtain ⟨last, ran⟩ : ∃ last, runCalls [⟨allow "shell" "domain" "file" (some "read"), (0, 0)⟩,
      ⟨deny "shell" "domain" "file" "read", (0, 0)⟩] (shellPolicy 30) = some last := ⟨_, rfl⟩
  have isAv : (ruleKey 1 2 1 .allowed).specified.isAv = true := rfl
  have inside : 0 < 32 := by decide
  have decides := last_rule_decides fit (by decide) ran isAv inside
  refine ⟨last, ran, ?_⟩
  apply decides.1 [_] (0, 0) .deny (some (ascii "shell")) (some (ascii "domain"))
    (some (ascii "file")) (some (ascii "read")) [] rfl
  · refine ⟨⟨_, rfl⟩, ⟨rfl, ⟨{ value := 1 }, by decide, rfl⟩, ⟨{ value := 2 }, by decide, rfl⟩,
      ⟨_, List.mem_singleton.mpr rfl, rfl⟩⟩, ?_⟩
    intro permName named
    cases named
    exact ⟨ascii "file", _, { value := 1 }, rfl, List.mem_singleton.mpr rfl,
      .own (List.mem_singleton.mpr rfl), rfl⟩
  · exact fun later member => absurd member List.not_mem_nil

/-! ## Access after granting statements -/

theorem hasRowBit_foldl_addRowBit (places : List (Nat × Nat)) (rows : List Ebitmap)
    (row bit : Nat) :
    HasRowBit (places.foldl addRowBit rows) row bit ↔
      HasRowBit rows row bit ∨ row < rows.length ∧ (row, bit) ∈ places := by
  induction places generalizing rows with
  | nil => simp
  | cons place rest induction =>
      rcases place with ⟨placeRow, placeBit⟩
      rw [List.foldl_cons, induction, addRowBit, hasRowBit_setRowBit, length_setRowBit,
        List.mem_cons, Prod.mk.injEq]
      constructor
      · rintro ((⟨inside, rfl, rfl⟩ | before) | ⟨inside, later⟩)
        · exact Or.inr ⟨inside, Or.inl ⟨rfl, rfl⟩⟩
        · exact Or.inl before
        · exact Or.inr ⟨inside, Or.inr later⟩
      · rintro (before | ⟨inside, ⟨rfl, rfl⟩ | later⟩)
        · exact Or.inl (Or.inr before)
        · exact Or.inl (Or.inl ⟨inside, rfl, rfl⟩)
        · exact Or.inr ⟨inside, later⟩

theorem typeAttrMap_foldl_add (pointed : CString → Bool) (adds : List Additions)
    (state : Granted) :
    (adds.foldl (Granted.add pointed) state).typeAttrMap =
      (adds.flatMap Additions.attrs).foldl addRowBit state.typeAttrMap := by
  induction adds generalizing state with
  | nil => rfl
  | cons first rest induction =>
      rw [List.foldl_cons, induction, List.flatMap_cons, List.foldl_append]
      rfl

/-- `attradd` of an attribute to a type, by the numbers of the row and the bit. -/
def AddsAttribute (p : Policy) (call : PolicyCall) (row bit : Nat) : Prop :=
  ∃ s a domain attr, call = .attradd (some s) (some a) ∧
    hashtabSearch p.pTypes.table s = some domain ∧ attrValue p a = some attr ∧
    row = domain.value - 1 ∧ bit = attr - 1

theorem mem_attrs_additions {p : Policy} {call : PolicyCall} {row bit : Nat} :
    (row, bit) ∈ (additions p call).attrs ↔ AddsAttribute p call row bit := by
  constructor
  · intro member
    cases call with
    | rule action s t c perm => exact absurd member List.not_mem_nil
    | xperm action s t c range => exact absurd member List.not_mem_nil
    | typetrans s t c d o => exact absurd member List.not_mem_nil
    | typeState action s =>
        cases action with
        | create => exact absurd member List.not_mem_nil
        | permissive => exact absurd member List.not_mem_nil
        | enforce => exact absurd member List.not_mem_nil
    | attradd s a =>
        cases s with
        | none => exact absurd member List.not_mem_nil
        | some s =>
            cases a with
            | none => exact absurd member List.not_mem_nil
            | some a =>
                rw [additions, attrAdditions] at member
                cases found : hashtabSearch p.pTypes.table s with
                | none =>
                    rw [found] at member
                    exact absurd member List.not_mem_nil
                | some domain =>
                    rw [found] at member
                    rcases List.mem_map.mp member with ⟨attr, isAttr, same⟩
                    cases same
                    exact ⟨s, a, domain, attr, rfl, found, Option.mem_toList.mp isAttr, rfl, rfl⟩
  · rintro ⟨s, a, domain, attr, rfl, found, isAttr, rfl, rfl⟩
    rw [additions, attrAdditions, found, isAttr]
    exact List.mem_singleton.mpr rfl

/-- The types and attributes that a type carries after a script. -/
def CarriesAfter (p : Policy) (script : List Invocation) (type bit : Nat) : Prop :=
  bit ∈ (p.toPolicydb.typeAttrs type).bits ∨ type - 1 < p.typeAttrMap.length ∧
    ∃ invocation, invocation ∈ script ∧ AddsAttribute p invocation.call (type - 1) bit

theorem mem_typeAttrs_iff (db : Policydb) (type bit : Nat) :
    bit ∈ (db.typeAttrs type).bits ↔ HasRowBit db.typeAttrMap (type - 1) bit := by
  rw [Policydb.typeAttrs, HasRowBit]
  cases db.typeAttrMap[type - 1]? with
  | none => simp [Ebitmap.empty]
  | some row => simp

theorem mem_typeAttrs_runCalls {p last : Policy} {script : List Invocation}
    (granting : ∀ invocation, invocation ∈ script → GrantingCall invocation.call)
    (ran : runCalls script p = some last) (type bit : Nat) :
    bit ∈ (last.toPolicydb.typeAttrs type).bits ↔ CarriesAfter p script type bit := by
  have survive : ∀ invocation, invocation ∈ script → ¬Crashes p invocation.call := by
    intro invocation member crashes
    rw [(runCalls_adds p granting).1 ⟨invocation, member, crashes⟩] at ran
    cases ran
  have added := (runCalls_adds p granting).2 survive
  rw [ran, Option.map_some, Option.some.injEq, ← List.foldl_map] at added
  have rows : last.typeAttrMap = _ :=
    (congrArg Granted.typeAttrMap added).trans (typeAttrMap_foldl_add _ _ _)
  rw [mem_typeAttrs_iff, show last.toPolicydb.typeAttrMap = last.typeAttrMap from rfl, rows,
    hasRowBit_foldl_addRowBit, CarriesAfter, mem_typeAttrs_iff]
  simp only [List.mem_flatMap, List.mem_map, exists_exists_and_eq_and, mem_attrs_additions]
  rfl

theorem keepsSymbols_of_grants {call : PolicyCall} (grants : GrantingCall call) :
    KeepsSymbols call := by
  cases call with
  | rule action s t c perm => trivial
  | xperm action s t c range => trivial
  | attradd s a => trivial
  | typeState action s =>
      cases action with
      | create => cases grants
      | permissive => trivial
      | enforce => trivial
  | typetrans s t c d o => cases grants

theorem grants_runCalls {p last : Policy} (fit : p.toPolicydb.ValuesFit)
    {script : List Invocation}
    (granting : ∀ invocation, invocation ∈ script → GrantingCall invocation.call)
    (ran : runCalls script p = some last) (i j : Nat) (tclass : UInt16) {bit : Nat}
    (inside : bit < 32) :
    Grants last.toPolicydb i j tclass bit ↔ Grants p.toPolicydb i j tclass bit ∨
      ∃ invocation, invocation ∈ script ∧ ∃ s t c perm,
        invocation.call = .rule .allow s t c perm ∧
        IsAboutBit p.toPolicydb .allow s t c perm ⟨avkey i j tclass, .allowed⟩ bit := by
  have keeps := fun invocation member => keepsSymbols_of_grants (granting invocation member)
  have isAv : (⟨avkey i j tclass, .allowed⟩ : AvtabKey).specified.isAv = true := rfl
  have decides := (storedVector_runCalls keeps ran isAv inside).2
  have writes := fun call value =>
    writtenBit_eq_some_iff fit ⟨avkey i j tclass, .allowed⟩ inside call value
  rw [Grants, Grants, show last.toPolicydb.teAvtab = last.teAvtab from rfl, decides]
  generalize isWritten : (script.filterMap fun invocation => writtenBit p.toPolicydb
    ⟨avkey i j tclass, .allowed⟩ bit invocation.call) = written
  have mem_written : ∀ value, value ∈ written ↔ ∃ invocation, invocation ∈ script ∧
      writtenBit p.toPolicydb ⟨avkey i j tclass, .allowed⟩ bit invocation.call = some value := by
    intro value
    rw [← isWritten, List.mem_filterMap]
  constructor
  · intro granted
    cases isLast : written.getLast? with
    | none =>
        rw [isLast] at granted
        exact Or.inl granted
    | some value =>
        right
        rcases (mem_written value).mp (List.mem_of_getLast? isLast) with
          ⟨invocation, member, isWrite⟩
        rcases (writes invocation.call value).mp isWrite with
          ⟨action, s, t, c, perm, isCall, isAbout, -⟩
        have isAllow : action = .allow := by
          have kind := isAbout.isMatch.specified
          have notDeny := granting invocation member
          rw [isCall] at notDeny
          cases action with
          | allow => rfl
          | deny => exact absurd rfl notDeny
          | auditallow => cases kind
          | auditdeny => cases kind
        exact ⟨invocation, member, s, t, c, perm, isAllow ▸ isCall, isAllow ▸ isAbout⟩
  · intro granted
    have allTrue : ∀ value, value ∈ written → value = true := by
      intro value member
      rcases (mem_written value).mp member with ⟨invocation, inScript, isWrite⟩
      rcases (writes invocation.call value).mp isWrite with
        ⟨action, s, t, c, perm, isCall, -, rfl⟩
      have notDeny := granting invocation inScript
      rw [isCall] at notDeny
      cases action with
      | deny => exact absurd rfl notDeny
      | allow => rfl
      | auditallow => rfl
      | auditdeny => rfl
    cases isLast : written.getLast? with
    | some value => exact allTrue value (List.mem_of_getLast? isLast)
    | none =>
        rcases granted with before | ⟨invocation, member, s, t, c, perm, isCall, isAbout⟩
        · exact before
        · have isWrite := (writes invocation.call true).mpr
            ⟨.allow, s, t, c, perm, isCall, isAbout, rfl⟩
          have someWritten := (mem_written true).mpr ⟨invocation, member, isWrite⟩
          rw [List.getLast?_eq_none_iff.mp isLast] at someWritten
          cases someWritten

/-- The decisions after a script of `allow`, `auditallow`, `auditdeny`, `attradd` and `permissive`:
an access is granted when the source and the target carry, after the attributes that were added,
types or attributes between which it was granted before or an `allow` of the script asks for it. -/
theorem access_after_granting_script {p last : Policy} (fit : p.toPolicydb.ValuesFit)
    {script : List Invocation}
    (granting : ∀ invocation, invocation ∈ script → GrantingCall invocation.call)
    (ran : runCalls script p = some last) (x y : Nat) (tclass : UInt16) {bit : Nat}
    (inside : bit < 32) :
    (effectiveAllowed last.toPolicydb x y tclass).getLsbD bit = true ↔
      ∃ i, CarriesAfter p script x i ∧ ∃ j, CarriesAfter p script y j ∧
        (Grants p.toPolicydb i j tclass bit ∨
          ∃ invocation, invocation ∈ script ∧ ∃ s t c perm,
            invocation.call = .rule .allow s t c perm ∧
            IsAboutBit p.toPolicydb .allow s t c perm ⟨avkey i j tclass, .allowed⟩ bit) := by
  rw [effectiveAllowed_iff_grants]
  simp only [mem_typeAttrs_runCalls granting ran, grants_runCalls fit granting ran _ _ tclass inside]

def bareShell : Policy :=
  { shellPolicy 30 with
    typeAttrMap :=
      [{ bits := [0], ascending := first_ascending }, { bits := [1], ascending := second_ascending }] }

/-- `attradd shell domain` and `allow domain domain file read` let `shell` read. -/
theorem access_after_attradd : ∃ last,
    runCalls [⟨attradd "shell" "domain", (0, 0)⟩,
      ⟨allow "domain" "domain" "file" (some "read"), (0, 0)⟩] bareShell = some last ∧
    (effectiveAllowed last.toPolicydb 1 1 1).getLsbD 0 = true := by
  have fit : bareShell.toPolicydb.ValuesFit :=
    have shellFit := (shellPolicydb (Avtab.empty 0)).fit
    ⟨shellFit.types, shellFit.classes, shellFit.perms, shellFit.commons⟩
  obtain ⟨last, ran⟩ : ∃ last, runCalls [⟨attradd "shell" "domain", (0, 0)⟩,
      ⟨allow "domain" "domain" "file" (some "read"), (0, 0)⟩] bareShell = some last := ⟨_, rfl⟩
  have granting : ∀ invocation, invocation ∈ [⟨attradd "shell" "domain", (0, 0)⟩,
      ⟨allow "domain" "domain" "file" (some "read"), (0, 0)⟩] →
      GrantingCall (Invocation.call invocation) := by
    intro invocation member
    rcases List.mem_cons.mp member with rfl | later
    · trivial
    · cases List.mem_singleton.mp later
      exact fun isDeny => by cases isDeny
  have carries : CarriesAfter bareShell [⟨attradd "shell" "domain", (0, 0)⟩,
      ⟨allow "domain" "domain" "file" (some "read"), (0, 0)⟩] 1 1 :=
    Or.inr ⟨by decide, _, List.mem_cons_self, _, _, _, 2, rfl, rfl, rfl, rfl, rfl⟩
  refine ⟨last, ran, (access_after_granting_script fit granting ran 1 1 1 (by decide)).mpr
    ⟨1, carries, 1, carries, Or.inr ⟨_, List.mem_cons_of_mem _ List.mem_cons_self, _, _, _, _, rfl,
      ⟨⟨_, rfl⟩, ⟨rfl, ⟨{ value := 2 }, by decide, rfl⟩, ⟨{ value := 2 }, by decide, rfl⟩,
        ⟨_, List.mem_singleton.mpr rfl, rfl⟩⟩, ?_⟩⟩⟩⟩
  intro permName named
  cases named
  exact ⟨ascii "file", _, { value := 1 }, rfl, List.mem_singleton.mpr rfl,
    .own (List.mem_singleton.mpr rfl), rfl⟩

end SuBinary.Magiskpolicy
