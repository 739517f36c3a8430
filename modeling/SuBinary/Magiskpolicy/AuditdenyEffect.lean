import SuBinary.Magiskpolicy.EffectiveAccess

/-! # The effect of `auditdeny` on access decisions

Decisions intersect the vectors of all `auditdeny` rules, so a rule that is
missing audits every denial, while a rule that is made for one permission stops
the auditing of all others.
-/

namespace SuBinary.Magiskpolicy

open SuBinary Sepol

/-! ## What the statement is for -/

/-- `auditdeny` may turn the auditing of its own permission on, and changes no
other bit of any decision. -/
def OnlyAddsAuditing (db : Policydb) (s t c p : Option CString) : Prop :=
  ∀ x y tclass bit, bit < 32 →
    ((effectiveAuditdeny db x y tclass).getLsbD bit = true →
      (effectiveAuditdeny (sepolAuditdeny db s t c p).1 x y tclass).getLsbD bit = true) ∧
    (¬(ClassMatched db tclass c ∧ NamesBit db c p bit) →
      (effectiveAuditdeny (sepolAuditdeny db s t c p).1 x y tclass).getLsbD bit =
        (effectiveAuditdeny db x y tclass).getLsbD bit)

/-- Where the statement has to make a rule, no other denial is audited between
the types that the rule is about. -/
def NothingElseAudited (db : Policydb) (s t c p : Option CString) : Prop :=
  ∀ key, MatchesRule db s t c .auditdeny key → avtabSearch db.teAvtab key = none →
    ∀ x y, db.Carries x key.sourceType.toNat → db.Carries y key.targetType.toNat →
      ∀ bit, bit < 32 → ¬NamesBit db c p bit →
        (effectiveAuditdeny db x y key.targetClass).getLsbD bit = false

/-! ## Rules -/

def Silences (db : Policydb) (i j : Nat) (tclass : UInt16) (bit : Nat) : Prop :=
  avtabSearch db.teAvtab ⟨avkey i j tclass, .auditdeny⟩ ≠ none ∧
    (storedVector db.teAvtab ⟨avkey i j tclass, .auditdeny⟩).getLsbD bit = false

theorem exists_mem_data_iff_silences (db : Policydb) (i j : Nat) (tclass : UInt16)
    (bit : Nat) :
    (∃ datum, datum ∈ db.teAvtab.data ⟨avkey i j tclass, .auditdeny⟩ ∧
      datum.data.getLsbD bit = false) ↔ Silences db i j tclass bit := by
  rw [Silences, storedVector, Avtab.data_eq_toList_search _ _ rfl]
  cases avtabSearch db.teAvtab ⟨avkey i j tclass, .auditdeny⟩ with
  | none => simp
  | some datum => simp

theorem effectiveAuditdeny_iff_silences (db : Policydb) (x y : Nat) (tclass : UInt16)
    (bit : Nat) (inside : bit < 32) :
    (effectiveAuditdeny db x y tclass).getLsbD bit = false ↔
      ∃ i, i ∈ (db.typeAttrs x).bits ∧ ∃ j, j ∈ (db.typeAttrs y).bits ∧
        Silences db i j tclass bit := by
  rw [effectiveAuditdeny_bit db x y tclass bit inside]
  simp only [exists_mem_data_iff_silences]

theorem search_addRule_eq_none_iff {db : Policydb} (fit : db.ValuesFit)
    {s t c p : Option CString} {symbols : RuleSymbols}
    (found : ruleSymbols db s t c p = .ok symbols) (effect : AvtabSpecified) (not : Bool)
    (key : AvtabKey) :
    avtabSearch (addRule db s t c p effect not).1.teAvtab key = none ↔
      ¬MatchesRule db s t c effect key ∧ avtabSearch db.teAvtab key = none := by
  rw [addRule_eq_editKeys found, Avtab.search_eq_head?, Avtab.search_eq_head?, data_editKeys,
    ← mem_ruleKeys_iff fit found]
  by_cases visited : key ∈ symbols.keys db effect
  · simp [visited]
  · simp [visited]

theorem silences_sepolAuditdeny_of_match {db : Policydb} (fit : db.ValuesFit)
    {s t c p : Option CString} {symbols : RuleSymbols}
    (found : ruleSymbols db s t c p = .ok symbols) {i j : Nat} {tclass : UInt16}
    (isMatch : MatchesRule db s t c .auditdeny ⟨avkey i j tclass, .auditdeny⟩) {bit : Nat}
    (inside : bit < 32) :
    Silences (sepolAuditdeny db s t c p).1 i j tclass bit ↔
      ¬NamesBit db c p bit ∧
        (avtabSearch db.teAvtab ⟨avkey i j tclass, .auditdeny⟩ = none ∨
          Silences db i j tclass bit) := by
  have edited := addRule_bit fit found .auditdeny false ⟨avkey i j tclass, .auditdeny⟩ bit inside
  rw [affectsBit_iff_namesBit found] at edited
  rw [Silences, Ne, sepolAuditdeny, search_addRule_eq_none_iff fit found]
  by_cases named : NamesBit db c p bit
  · simp [edited.1 ⟨isMatch, named⟩, named]
  · rw [edited.2 fun both => named both.2]
    cases searched : avtabSearch db.teAvtab ⟨avkey i j tclass, .auditdeny⟩ with
    | none => simp [named, isMatch, storedVector, searched]
    | some datum => simp [named, Silences, searched]

theorem silences_sepolAuditdeny_of_no_match {db : Policydb} (fit : db.ValuesFit)
    {s t c p : Option CString} {symbols : RuleSymbols}
    (found : ruleSymbols db s t c p = .ok symbols) {i j : Nat} {tclass : UInt16}
    (noMatch : ¬MatchesRule db s t c .auditdeny ⟨avkey i j tclass, .auditdeny⟩) {bit : Nat}
    (inside : bit < 32) :
    Silences (sepolAuditdeny db s t c p).1 i j tclass bit ↔ Silences db i j tclass bit := by
  have edited := addRule_bit fit found .auditdeny false ⟨avkey i j tclass, .auditdeny⟩ bit inside
  rw [Silences, Silences, Ne, sepolAuditdeny, search_addRule_eq_none_iff fit found,
    edited.2 fun both => noMatch both.1]
  simp [noMatch]

/-! ## The statement -/

theorem MatchesRule.eq_avkey {db : KernelPolicydb} {s t c : Option CString}
    {effect : AvtabSpecified} {key : AvtabKey}
    (isMatch : MatchesRule db.toPolicydb s t c effect key) :
    key = ⟨avkey (key.sourceType.toNat - 1) (key.targetType.toNat - 1) key.targetClass,
      effect⟩ := by
  rcases isMatch.source with ⟨src, srcMember, srcValue⟩
  rcases isMatch.target with ⟨tgt, tgtMember, tgtValue⟩
  have srcPositive := db.typesPositive src (mem_of_mem_matched srcMember)
  have tgtPositive := db.typesPositive tgt (mem_of_mem_matched tgtMember)
  rcases key with ⟨⟨source, target, targetClass⟩, specified⟩
  have sameSource : source.toNat - 1 + 1 = source.toNat := by
    dsimp only at srcValue
    omega
  have sameTarget : target.toNat - 1 + 1 = target.toNat := by
    dsimp only at tgtValue
    omega
  have sameEffect : specified = effect := isMatch.specified
  simp [avkey, sameSource, sameTarget, sameEffect]

theorem carries_ofNat_of_mem {db : Policydb} {type bit : Nat} (fits : bit + 1 < 2 ^ 16)
    (carried : bit ∈ (db.typeAttrs type).bits) :
    db.Carries type (UInt16.ofNat (bit + 1)).toNat := by
  rw [Policydb.Carries, UInt16.toNat_ofNat_of_lt' fits, Nat.add_sub_cancel]
  exact carried

/-- `auditdeny` only turns auditing on, for its own permission, if and only if
nothing else was audited where it has to make a rule. -/
theorem onlyAddsAuditing_iff_nothingElseAudited (db : KernelPolicydb)
    (s t c p : Option CString) (succeeds : (sepolAuditdeny db.toPolicydb s t c p).2 = 0) :
    OnlyAddsAuditing db.toPolicydb s t c p ↔ NothingElseAudited db.toPolicydb s t c p := by
  rcases ruleSymbols_of_succeeds succeeds with ⟨symbols, found⟩
  have sameRows : ∀ type, (sepolAuditdeny db.toPolicydb s t c p).1.typeAttrs type =
      db.typeAttrs type := typeAttrs_addRule db.toPolicydb s t c p .auditdeny false
  constructor
  · intro onlyAdds key isMatch missing x y xCarries yCarries bit inside unnamed
    by_contra audited
    have stillAudited := (onlyAdds x y key.targetClass bit inside).1 (by simpa using audited)
    have isAvkey := isMatch.eq_avkey
    rw [isAvkey] at isMatch missing
    have silenced : (effectiveAuditdeny (sepolAuditdeny db.toPolicydb s t c p).1 x y
        key.targetClass).getLsbD bit = false := by
      rw [effectiveAuditdeny_iff_silences _ x y _ bit inside, sameRows, sameRows]
      exact ⟨_, xCarries, _, yCarries, (silences_sepolAuditdeny_of_match db.fit found isMatch
        inside).mpr ⟨unnamed, Or.inl missing⟩⟩
    rw [stillAudited] at silenced
    cases silenced
  · intro nothingElse x y tclass bit inside
    have keeps : (effectiveAuditdeny db.toPolicydb x y tclass).getLsbD bit = true →
        (effectiveAuditdeny (sepolAuditdeny db.toPolicydb s t c p).1 x y tclass).getLsbD bit =
          true := by
      intro audited
      by_contra silenced
      rw [Bool.not_eq_true, effectiveAuditdeny_iff_silences _ x y _ bit inside, sameRows,
        sameRows] at silenced
      rcases silenced with ⟨i, iCarried, j, jCarried, silences⟩
      have notBefore : ¬Silences db.toPolicydb i j tclass bit := by
        intro before
        have silent := (effectiveAuditdeny_iff_silences db.toPolicydb x y tclass bit inside).mpr
          ⟨i, iCarried, j, jCarried, before⟩
        rw [audited] at silent
        cases silent
      by_cases isMatch : MatchesRule db.toPolicydb s t c .auditdeny
          ⟨avkey i j tclass, .auditdeny⟩
      · rcases (silences_sepolAuditdeny_of_match db.fit found isMatch inside).mp silences with
          ⟨unnamed, missing | before⟩
        · have xCarries := carries_ofNat_of_mem (db.attrsFit x i iCarried) iCarried
          have yCarries := carries_ofNat_of_mem (db.attrsFit y j jCarried) jCarried
          have silent := nothingElse _ isMatch missing x y xCarries yCarries bit inside unnamed
          rw [show (avkey i j tclass).targetClass = tclass from rfl, audited] at silent
          cases silent
        · exact notBefore before
      · exact notBefore
          ((silences_sepolAuditdeny_of_no_match db.fit found isMatch inside).mp silences)
    refine ⟨keeps, fun other => ?_⟩
    by_cases audited : (effectiveAuditdeny db.toPolicydb x y tclass).getLsbD bit = true
    · rw [audited, keeps audited]
    · rw [Bool.not_eq_true] at audited
      rw [audited, effectiveAuditdeny_iff_silences _ x y _ bit inside, sameRows, sameRows]
      rcases (effectiveAuditdeny_iff_silences db.toPolicydb x y tclass bit inside).mp audited with
        ⟨i, iCarried, j, jCarried, silences⟩
      refine ⟨i, iCarried, j, jCarried, ?_⟩
      by_cases isMatch : MatchesRule db.toPolicydb s t c .auditdeny
          ⟨avkey i j tclass, .auditdeny⟩
      · have unnamed : ¬NamesBit db.toPolicydb c p bit :=
          fun named => other ⟨isMatch.targetClass, named⟩
        exact (silences_sepolAuditdeny_of_match db.fit found isMatch inside).mpr
          ⟨unnamed, Or.inr silences⟩
      · exact (silences_sepolAuditdeny_of_no_match db.fit found isMatch inside).mpr silences

/-- `auditdeny shell domain file *`, and then the same for `read` only. -/
theorem onlyAddsAuditing_after_all :
    OnlyAddsAuditing
      (shellPolicydb (sepolAuditdeny (shellPolicydb auditedTable).toPolicydb
        (some (ascii "shell")) (some (ascii "domain")) (some (ascii "file")) none).1.teAvtab
        ).toPolicydb
      (some (ascii "shell")) (some (ascii "domain")) (some (ascii "file"))
      (some (ascii "read")) := by
  rw [onlyAddsAuditing_iff_nothingElseAudited _ _ _ _ _ rfl]
  intro key isMatch missing
  have found : ruleSymbols
      (shellPolicydb (sepolAuditdeny (shellPolicydb auditedTable).toPolicydb
        (some (ascii "shell")) (some (ascii "domain")) (some (ascii "file")) none).1.teAvtab
        ).toPolicydb
      (some (ascii "shell")) (some (ascii "domain")) (some (ascii "file"))
      (some (ascii "read")) = .ok
        { src := some { value := 1 }
          tgt := some { value := 2 }
          cls := some
            { value := 1
              permissions := Hashtab.single (ascii "read") { value := 1 }
              comdatum := none }
          perm := some { value := 1 } } := rfl
  have visited := (mem_ruleKeys_iff (shellPolicydb _).fit found .auditdeny key).mpr isMatch
  rw [show key = ruleKey 1 2 1 .auditdeny from List.mem_singleton.mp visited] at missing
  cases missing

/-- Without another `auditdeny` rule, `auditdeny shell domain file read` silences the
denial of every other permission on a file. -/
theorem auditdeny_read_silences :
    (sepolAuditdeny (shellPolicydb auditedTable).toPolicydb (some (ascii "shell"))
        (some (ascii "domain")) (some (ascii "file")) (some (ascii "read"))).2 = 0 ∧
      ¬OnlyAddsAuditing (shellPolicydb auditedTable).toPolicydb (some (ascii "shell"))
        (some (ascii "domain")) (some (ascii "file")) (some (ascii "read")) := by
  refine ⟨rfl, fun onlyAdds => ?_⟩
  have kept := (onlyAdds 1 2 1 1 (by decide)).1 (by decide +kernel)
  revert kept
  decide +kernel

end SuBinary.Magiskpolicy
