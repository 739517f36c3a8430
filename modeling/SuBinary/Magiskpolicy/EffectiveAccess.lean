import SuBinary.Magiskpolicy.RuleEffect
import SuBinary.Sepol.Services

/-! # The effect of `allow` and `deny` on access decisions

A statement edits rules between the types and attributes it names, while a
decision looks at the rules between all types and attributes of two types.
-/

namespace SuBinary.Magiskpolicy

open SuBinary Sepol

/-! ## Rules and decisions -/

/-- A rule between the types or attributes of bits `i` and `j` allows a
permission. -/
def Grants (db : Policydb) (i j : Nat) (tclass : UInt16) (bit : Nat) : Prop :=
  (storedVector db.teAvtab ⟨avkey i j tclass, .allowed⟩).getLsbD bit = true

/-- `type` carries one of the types or attributes a name stands for. -/
def CarriesMatched (db : Policydb) (type : Nat) (name : Option CString) : Prop :=
  ∃ datum, datum ∈ matched db.pTypes name ∧ db.Carries type datum.value

/-- `tclass` is one of the classes a name stands for. -/
def ClassMatched (db : Policydb) (tclass : UInt16) (name : Option CString) : Prop :=
  ∃ cls, cls ∈ matched db.pClasses name ∧ cls.value = tclass.toNat

theorem exists_mem_data_iff_storedVector (h : Avtab) (key : AvtabKey)
    (plain : key.specified.isXperms = false) (bit : Nat) :
    (∃ datum, datum ∈ h.data key ∧ datum.data.getLsbD bit = true) ↔
      (storedVector h key).getLsbD bit = true := by
  rw [h.data_eq_toList_search key plain, storedVector]
  cases avtabSearch h key with
  | none => simp
  | some datum => simp

theorem effectiveAllowed_iff_grants (db : Policydb) (x y : Nat) (tclass : UInt16)
    (bit : Nat) :
    (effectiveAllowed db x y tclass).getLsbD bit = true ↔
      ∃ i, i ∈ (db.typeAttrs x).bits ∧ ∃ j, j ∈ (db.typeAttrs y).bits ∧
        Grants db i j tclass bit := by
  rw [effectiveAllowed_bit]
  simp only [exists_mem_data_iff_storedVector _ ⟨avkey _ _ tclass, .allowed⟩ rfl, Grants]

theorem typeAttrs_addRule (db : Policydb) (s t c p : Option CString)
    (effect : AvtabSpecified) (not : Bool) (type : Nat) :
    (addRule db s t c p effect not).1.typeAttrs type = db.typeAttrs type := by
  cases found : ruleSymbols db s t c p with
  | error error => rw [addRule_unresolved found]
  | ok symbols => rw [addRule_eq_editKeys found]; rfl

theorem ruleSymbols_of_succeeds {db : Policydb} {s t c p : Option CString}
    {effect : AvtabSpecified} {not : Bool}
    (succeeds : (addRule db s t c p effect not).2 = 0) :
    ∃ symbols, ruleSymbols db s t c p = .ok symbols := by
  cases found : ruleSymbols db s t c p with
  | error error =>
      rw [addRule_unresolved found] at succeeds
      exact absurd succeeds Nat.one_ne_zero
  | ok symbols => exact ⟨symbols, rfl⟩

theorem matchesRule_avkey_iff {db : Policydb} {i j : Nat} (iFits : i + 1 < 2 ^ 16)
    (jFits : j + 1 < 2 ^ 16) (s t c : Option CString) (effect : AvtabSpecified)
    (tclass : UInt16) :
    MatchesRule db s t c effect ⟨avkey i j tclass, effect⟩ ↔
      (∃ src, src ∈ matched db.pTypes s ∧ src.value = i + 1) ∧
      (∃ tgt, tgt ∈ matched db.pTypes t ∧ tgt.value = j + 1) ∧
      ClassMatched db tclass c := by
  have iKept : (UInt16.ofNat (i + 1)).toNat = i + 1 := UInt16.toNat_ofNat_of_lt' iFits
  have jKept : (UInt16.ofNat (j + 1)).toNat = j + 1 := UInt16.toNat_ofNat_of_lt' jFits
  constructor
  · rintro ⟨-, source, target, targetClass⟩
    simp only [avkey, iKept, jKept] at source target
    exact ⟨source, target, targetClass⟩
  · rintro ⟨source, target, targetClass⟩
    exact
      { specified := rfl
        source := by simpa only [avkey, iKept] using source
        target := by simpa only [avkey, jKept] using target
        targetClass := targetClass }

/-! ## Allowing -/

/-- After a successful `allow`, a permission is effective when it was before or
when the statement asks for it: the source and target carry types or attributes
it names, and the class and the permission are among its own. -/
theorem sepolAllow_grants_exactly (db : KernelPolicydb) (s t c p : Option CString)
    (succeeds : (sepolAllow db.toPolicydb s t c p).2 = 0) (x y : Nat) (tclass : UInt16)
    (bit : Nat) (inside : bit < 32) :
    (effectiveAllowed (sepolAllow db.toPolicydb s t c p).1 x y tclass).getLsbD bit = true ↔
      (effectiveAllowed db.toPolicydb x y tclass).getLsbD bit = true ∨
        (CarriesMatched db.toPolicydb x s ∧ CarriesMatched db.toPolicydb y t ∧
          ClassMatched db.toPolicydb tclass c ∧ NamesBit db.toPolicydb c p bit) := by
  rcases ruleSymbols_of_succeeds succeeds with ⟨symbols, found⟩
  rw [effectiveAllowed_iff_grants, effectiveAllowed_iff_grants,
    ← affectsBit_iff_namesBit found]
  simp only [sepolAllow, typeAttrs_addRule]
  have rule := fun i j => addRule_bit db.fit found .allowed false
    ⟨avkey i j tclass, .allowed⟩ bit inside
  constructor
  · rintro ⟨i, iCarried, j, jCarried, granted⟩
    by_cases isMatch : MatchesRule db.toPolicydb s t c .allowed ⟨avkey i j tclass, .allowed⟩ ∧
        AffectsBit symbols.perm bit
    · rw [matchesRule_avkey_iff (db.attrsFit x i iCarried) (db.attrsFit y j jCarried)]
        at isMatch
      rcases isMatch with
        ⟨⟨⟨src, srcMember, srcValue⟩, ⟨tgt, tgtMember, tgtValue⟩, classMatched⟩, affects⟩
      refine Or.inr ⟨⟨src, srcMember, ?_⟩, ⟨tgt, tgtMember, ?_⟩, classMatched, affects⟩
      · simpa [Policydb.Carries, srcValue] using iCarried
      · simpa [Policydb.Carries, tgtValue] using jCarried
    · rw [Grants, (rule i j).2 isMatch] at granted
      exact Or.inl ⟨i, iCarried, j, jCarried, granted⟩
  · rintro (⟨i, iCarried, j, jCarried, granted⟩ |
      ⟨⟨src, srcMember, iCarried⟩, ⟨tgt, tgtMember, jCarried⟩, classMatched, affects⟩)
    · refine ⟨i, iCarried, j, jCarried, ?_⟩
      by_cases isMatch : MatchesRule db.toPolicydb s t c .allowed ⟨avkey i j tclass, .allowed⟩ ∧
          AffectsBit symbols.perm bit
      · exact (rule i j).1 isMatch
      · rw [Grants, (rule i j).2 isMatch]
        exact granted
    · have srcPositive := db.typesPositive src (mem_of_mem_matched srcMember)
      have tgtPositive := db.typesPositive tgt (mem_of_mem_matched tgtMember)
      refine ⟨_, iCarried, _, jCarried, (rule _ _).1 ⟨?_, affects⟩⟩
      rw [matchesRule_avkey_iff (db.attrsFit x _ iCarried) (db.attrsFit y _ jCarried)]
      exact ⟨⟨src, srcMember, by omega⟩, ⟨tgt, tgtMember, by omega⟩, classMatched⟩

/-- `allow domain * file read` lets `shell`, which carries `domain`, read. -/
theorem sepolAllow_domain_grants_shell :
    (sepolAllow (shellPolicydb auditedTable).toPolicydb (some (ascii "domain")) none
        (some (ascii "file")) (some (ascii "read"))).2 = 0 ∧
      (effectiveAllowed (sepolAllow (shellPolicydb auditedTable).toPolicydb
        (some (ascii "domain")) none (some (ascii "file")) (some (ascii "read"))).1
        1 2 1).getLsbD 0 = true := by
  have succeeds : (sepolAllow (shellPolicydb auditedTable).toPolicydb
      (some (ascii "domain")) none (some (ascii "file")) (some (ascii "read"))).2 = 0 := rfl
  refine ⟨succeeds, (sepolAllow_grants_exactly (shellPolicydb auditedTable) _ _ _ _
    succeeds 1 2 1 0 (by decide)).mpr (Or.inr ⟨?_, ?_, ?_, ?_⟩)⟩
  · exact ⟨{ value := 2 }, List.mem_singleton.mpr rfl, by unfold Policydb.Carries; decide⟩
  · exact ⟨{ value := 2 }, by decide, by unfold Policydb.Carries; decide⟩
  · exact ⟨_, List.mem_singleton.mpr rfl, rfl⟩
  · intro permName named
    cases named
    exact ⟨ascii "file", _, { value := 1 }, rfl, List.mem_singleton.mpr rfl,
      .own (List.mem_singleton.mpr rfl), rfl⟩

/-! ## Denying -/

structure NamedRule (db : Policydb) where
  s : CString
  t : CString
  c : CString
  p : CString
  src : TypeDatum
  tgt : TypeDatum
  cls : ClassDatum
  perm : PermDatum
  srcFound : hashtabSearch db.pTypes s = some src
  tgtFound : hashtabSearch db.pTypes t = some tgt
  clsFound : hashtabSearch db.pClasses c = some cls
  permFound : NamedIn cls p perm

namespace NamedRule

variable {db : Policydb} (rule : NamedRule db)

def deny : Policydb × Nat :=
  sepolDeny db (some rule.s) (some rule.t) (some rule.c) (some rule.p)

/-- The rule is about the decision for these types, class and permission. -/
def IsAbout (x y : Nat) (tclass : UInt16) (bit : Nat) : Prop :=
  db.Carries x rule.src.value ∧ db.Carries y rule.tgt.value ∧
    tclass.toNat = rule.cls.value ∧ bit + 1 = rule.perm.value

/-- Denying the rule succeeds, takes the permission from all types that carry
the rule's source and target and changes no other decision. -/
def DenyRemoves : Prop :=
  rule.deny.2 = 0 ∧ ∀ x y tclass bit, bit < 32 →
    (rule.IsAbout x y tclass bit →
      (effectiveAllowed rule.deny.1 x y tclass).getLsbD bit = false) ∧
    (¬rule.IsAbout x y tclass bit →
      (effectiveAllowed rule.deny.1 x y tclass).getLsbD bit =
        (effectiveAllowed db x y tclass).getLsbD bit)

/-- Between types that carry the rule's source and target, no other pair of
their types and attributes has a rule that allows the permission. -/
def OnlyGrant : Prop :=
  ∀ x y tclass bit, bit < 32 → rule.IsAbout x y tclass bit →
    ∀ i, i ∈ (db.typeAttrs x).bits → ∀ j, j ∈ (db.typeAttrs y).bits →
      Grants db i j tclass bit → i + 1 = rule.src.value ∧ j + 1 = rule.tgt.value

theorem ruleSymbols_eq :
    ruleSymbols db (some rule.s) (some rule.t) (some rule.c) (some rule.p) =
      .ok
        { src := some rule.src
          tgt := some rule.tgt
          cls := some rule.cls
          perm := some rule.perm } := by
  simp [ruleSymbols, lookupName, lookupPerm, rule.srcFound, rule.tgtFound, rule.clsFound,
    classPerm_eq_some_iff.mpr rule.permFound, bind, Except.bind, pure, Except.pure]

end NamedRule

theorem grants_deny_iff (db : KernelPolicydb) (rule : NamedRule db.toPolicydb) {i j : Nat}
    (iFits : i + 1 < 2 ^ 16) (jFits : j + 1 < 2 ^ 16) (tclass : UInt16) (bit : Nat)
    (inside : bit < 32) :
    Grants rule.deny.1 i j tclass bit ↔ Grants db.toPolicydb i j tclass bit ∧
      ¬(i + 1 = rule.src.value ∧ j + 1 = rule.tgt.value ∧
        tclass.toNat = rule.cls.value ∧ bit + 1 = rule.perm.value) := by
  have edited := addRule_bit db.fit rule.ruleSymbols_eq .allowed true
    ⟨avkey i j tclass, .allowed⟩ bit inside
  have isMatch : (MatchesRule db.toPolicydb (some rule.s) (some rule.t) (some rule.c) .allowed
        ⟨avkey i j tclass, .allowed⟩ ∧ AffectsBit (some rule.perm) bit) ↔
      (i + 1 = rule.src.value ∧ j + 1 = rule.tgt.value ∧
        tclass.toNat = rule.cls.value ∧ bit + 1 = rule.perm.value) := by
    rw [matchesRule_avkey_iff iFits jFits]
    simp [matched, rule.srcFound, rule.tgtFound, rule.clsFound, ClassMatched, AffectsBit,
      eq_comm, and_assoc]
  rw [isMatch] at edited
  unfold Grants NamedRule.deny sepolDeny
  by_cases isNamed : i + 1 = rule.src.value ∧ j + 1 = rule.tgt.value ∧
      tclass.toNat = rule.cls.value ∧ bit + 1 = rule.perm.value
  · simp [edited.1 isNamed, isNamed]
  · simp [edited.2 isNamed, isNamed]

theorem effectiveAllowed_deny_iff (db : KernelPolicydb) (rule : NamedRule db.toPolicydb)
    (x y : Nat) (tclass : UInt16) (bit : Nat) (inside : bit < 32) :
    (effectiveAllowed rule.deny.1 x y tclass).getLsbD bit = true ↔
      ∃ i, i ∈ (db.typeAttrs x).bits ∧ ∃ j, j ∈ (db.typeAttrs y).bits ∧
        Grants db.toPolicydb i j tclass bit ∧
          ¬(i + 1 = rule.src.value ∧ j + 1 = rule.tgt.value ∧
            tclass.toNat = rule.cls.value ∧ bit + 1 = rule.perm.value) := by
  have sameRows : ∀ type, rule.deny.1.typeAttrs type = db.typeAttrs type :=
    typeAttrs_addRule db.toPolicydb _ _ _ _ _ _
  rw [effectiveAllowed_iff_grants]
  simp only [sameRows]
  constructor
  · rintro ⟨i, iCarried, j, jCarried, granted⟩
    exact ⟨i, iCarried, j, jCarried, (grants_deny_iff db rule (db.attrsFit x i iCarried)
      (db.attrsFit y j jCarried) tclass bit inside).mp granted⟩
  · rintro ⟨i, iCarried, j, jCarried, granted⟩
    exact ⟨i, iCarried, j, jCarried, (grants_deny_iff db rule (db.attrsFit x i iCarried)
      (db.attrsFit y j jCarried) tclass bit inside).mpr granted⟩

/-- Denying a rule takes the access away if and only if the rule was the only
one that allowed it. -/
theorem denyRemoves_iff_onlyGrant (db : KernelPolicydb) (rule : NamedRule db.toPolicydb) :
    rule.DenyRemoves ↔ rule.OnlyGrant := by
  constructor
  · rintro ⟨-, removes⟩ x y tclass bit inside isAbout i iCarried j jCarried granted
    by_contra otherPair
    have cleared := (removes x y tclass bit inside).1 isAbout
    have stillGranted := (effectiveAllowed_deny_iff db rule x y tclass bit inside).mpr
      ⟨i, iCarried, j, jCarried, granted, fun named => otherPair ⟨named.1, named.2.1⟩⟩
    rw [cleared] at stillGranted
    cases stillGranted
  · intro onlyGrant
    refine ⟨?_, fun x y tclass bit inside => ⟨fun isAbout => ?_, fun notAbout => ?_⟩⟩
    · rw [NamedRule.deny, sepolDeny, addRule_eq_editKeys rule.ruleSymbols_eq]
    · rw [← Bool.not_eq_true, effectiveAllowed_deny_iff db rule x y tclass bit inside]
      rintro ⟨i, iCarried, j, jCarried, granted, otherRule⟩
      have pair := onlyGrant x y tclass bit inside isAbout i iCarried j jCarried granted
      exact otherRule ⟨pair.1, pair.2, isAbout.2.2⟩
    · rw [Bool.eq_iff_iff, effectiveAllowed_deny_iff db rule x y tclass bit inside,
        effectiveAllowed_iff_grants]
      constructor
      · rintro ⟨i, iCarried, j, jCarried, granted, -⟩
        exact ⟨i, iCarried, j, jCarried, granted⟩
      · rintro ⟨i, iCarried, j, jCarried, granted⟩
        refine ⟨i, iCarried, j, jCarried, granted, ?_⟩
        rintro ⟨srcValue, tgtValue, sameClass, sameBit⟩
        refine notAbout ⟨?_, ?_, sameClass, sameBit⟩
        · simpa [Policydb.Carries, ← srcValue] using iCarried
        · simpa [Policydb.Carries, ← tgtValue] using jCarried

def domainReads : KernelPolicydb :=
  shellPolicydb (sepolAllow (shellPolicydb (Avtab.empty 0)).toPolicydb
    (some (ascii "domain")) (some (ascii "domain")) (some (ascii "file"))
    (some (ascii "read"))).1.teAvtab

def shellReads : NamedRule domainReads.toPolicydb where
  s := ascii "shell"
  t := ascii "shell"
  c := ascii "file"
  p := ascii "read"
  src := { value := 1 }
  tgt := { value := 1 }
  cls :=
    { value := 1
      permissions := Hashtab.single (ascii "read") { value := 1 }
      comdatum := none }
  perm := { value := 1 }
  srcFound := rfl
  tgtFound := rfl
  clsFound := rfl
  permFound := .own (List.mem_singleton.mpr rfl)

/-- After `deny shell shell file read`, `shell` still reads through the rule
between its attributes. -/
theorem shellReads_survives_deny : ¬shellReads.DenyRemoves := by
  rintro ⟨-, removes⟩
  have cleared := (removes 1 1 1 0 (by decide)).1
    ⟨by unfold Policydb.Carries; decide, by unfold Policydb.Carries; decide, rfl, rfl⟩
  have granted : Grants domainReads.toPolicydb 1 1 1 0 := by
    rw [Grants]
    rfl
  have kept := (effectiveAllowed_deny_iff domainReads shellReads 1 1 1 0 (by decide)).mpr
    ⟨1, by decide, 1, by decide, granted, by decide⟩
  rw [cleared] at kept
  cases kept

end SuBinary.Magiskpolicy
