import SuBinary.Sepol.Policydb

/-! # Access decisions

The type-enforcement loop of `context_struct_compute_av` in `services.c`,
before conditional rules and constraints.
-/

namespace SuBinary.Sepol

structure AvDecision where
  allowed : BitVec 32
  auditallow : BitVec 32
  auditdeny : BitVec 32
deriving DecidableEq

def AvDecision.combine (avd : AvDecision)
    (node : ChainTable.Node AvtabTriple AvtabSpecified AvtabDatum) : AvDecision :=
  match node.tag with
  | .allowed => { avd with allowed := avd.allowed ||| node.datum.data }
  | .auditallow => { avd with auditallow := avd.auditallow ||| node.datum.data }
  | .auditdeny => { avd with auditdeny := avd.auditdeny &&& node.datum.data }
  | _ => avd

def avkey (i j : Nat) (tclass : UInt16) : AvtabTriple where
  sourceType := UInt16.ofNat (i + 1)
  targetType := UInt16.ofNat (j + 1)
  targetClass := tclass

def contextStructComputeAv (db : Policydb) (scontextType tcontextType : Nat)
    (tclass : UInt16) : AvDecision :=
  (db.typeAttrs scontextType).bits.foldl (fun avd i =>
    (db.typeAttrs tcontextType).bits.foldl (fun avd j =>
      (avtabNodes db.teAvtab (avkey i j tclass) AvtabSpecified.isAv).foldl
        AvDecision.combine avd) avd)
    { allowed := 0, auditallow := 0, auditdeny := BitVec.allOnes 32 }

/-- The permissions that type-enforcement rules allow between two types. -/
def effectiveAllowed (db : Policydb) (x y : Nat) (tclass : UInt16) : BitVec 32 :=
  (contextStructComputeAv db x y tclass).allowed

/-- The permissions whose denial is audited between two types. -/
def effectiveAuditdeny (db : Policydb) (x y : Nat) (tclass : UInt16) : BitVec 32 :=
  (contextStructComputeAv db x y tclass).auditdeny

theorem combine_allowed_bit (avd : AvDecision)
    (node : ChainTable.Node AvtabTriple AvtabSpecified AvtabDatum) (bit : Nat) :
    (avd.combine node).allowed.getLsbD bit = true ↔
      avd.allowed.getLsbD bit = true ∨
        (node.tag = .allowed ∧ node.datum.data.getLsbD bit = true) := by
  rw [AvDecision.combine]
  split <;> simp_all

theorem combine_auditdeny_bit (avd : AvDecision)
    (node : ChainTable.Node AvtabTriple AvtabSpecified AvtabDatum) (bit : Nat) :
    (avd.combine node).auditdeny.getLsbD bit = false ↔
      avd.auditdeny.getLsbD bit = false ∨
        (node.tag = .auditdeny ∧ node.datum.data.getLsbD bit = false) := by
  rw [AvDecision.combine]
  split <;> simp_all [-Bool.and_eq_false_imp, Bool.and_eq_false_iff]

/-- The rule for a property of the decision that nodes of one kind can only add
to: it holds at the end when it held at the start or a rule between a type or
attribute of the source and one of the target added it. -/
theorem contextStructComputeAv_iff (Holds : AvDecision → Prop) (Adds : AvtabDatum → Prop)
    (specified : AvtabSpecified) (isAv : specified.isAv = true)
    (combineIff : ∀ avd node, Holds (AvDecision.combine avd node) ↔
      Holds avd ∨ (node.tag = specified ∧ Adds node.datum))
    (db : Policydb) (x y : Nat) (tclass : UInt16) :
    Holds (contextStructComputeAv db x y tclass) ↔
      Holds { allowed := 0, auditallow := 0, auditdeny := BitVec.allOnes 32 } ∨
        ∃ i, i ∈ (db.typeAttrs x).bits ∧ ∃ j, j ∈ (db.typeAttrs y).bits ∧
          ∃ datum, datum ∈ db.teAvtab.data ⟨avkey i j tclass, specified⟩ ∧ Adds datum := by
  have visits : ∀ avd i j,
      Holds ((avtabNodes db.teAvtab (avkey i j tclass) AvtabSpecified.isAv).foldl
        AvDecision.combine avd) ↔ Holds avd ∨
        ∃ datum, datum ∈ db.teAvtab.data ⟨avkey i j tclass, specified⟩ ∧ Adds datum := by
    intro avd i j
    apply (foldl_iff_exists Holds _ (fun avd node _ => combineIff avd node) _).trans
    apply or_congr_right
    constructor
    · rintro ⟨⟨nodeKey, tag, datum⟩, member, rfl, adds⟩
      have sameKey := Avtab.key_of_mem_avtabNodes member
      dsimp only at sameKey
      subst sameKey
      exact ⟨datum, (Avtab.mem_avtabNodes _ _ _ _ isAv _).mp member, adds⟩
    · rintro ⟨datum, member, adds⟩
      exact ⟨_, (Avtab.mem_avtabNodes _ _ _ _ isAv _).mpr member, rfl, adds⟩
  exact foldl_iff_exists Holds (db.typeAttrs x).bits (fun avd i _ =>
    foldl_iff_exists Holds (db.typeAttrs y).bits (fun avd j _ => visits avd i j) avd)
    { allowed := 0, auditallow := 0, auditdeny := BitVec.allOnes 32 }

theorem effectiveAllowed_bit (db : Policydb) (x y : Nat) (tclass : UInt16) (bit : Nat) :
    (effectiveAllowed db x y tclass).getLsbD bit = true ↔
      ∃ i, i ∈ (db.typeAttrs x).bits ∧ ∃ j, j ∈ (db.typeAttrs y).bits ∧
        ∃ datum, datum ∈ db.teAvtab.data ⟨avkey i j tclass, .allowed⟩ ∧
          datum.data.getLsbD bit = true := by
  have decided := contextStructComputeAv_iff (fun avd => avd.allowed.getLsbD bit = true)
    (fun datum => datum.data.getLsbD bit = true) .allowed rfl
    (fun avd node => combine_allowed_bit avd node bit) db x y tclass
  have nothingYet : (0 : BitVec 32).getLsbD bit ≠ true := by simp
  exact decided.trans (or_iff_right nothingYet)

theorem effectiveAuditdeny_bit (db : Policydb) (x y : Nat) (tclass : UInt16) (bit : Nat)
    (inside : bit < 32) :
    (effectiveAuditdeny db x y tclass).getLsbD bit = false ↔
      ∃ i, i ∈ (db.typeAttrs x).bits ∧ ∃ j, j ∈ (db.typeAttrs y).bits ∧
        ∃ datum, datum ∈ db.teAvtab.data ⟨avkey i j tclass, .auditdeny⟩ ∧
          datum.data.getLsbD bit = false := by
  have decided := contextStructComputeAv_iff (fun avd => avd.auditdeny.getLsbD bit = false)
    (fun datum => datum.data.getLsbD bit = false) .auditdeny rfl
    (fun avd node => combine_auditdeny_bit avd node bit) db x y tclass
  have allYet : (BitVec.allOnes 32).getLsbD bit ≠ false := by
    rw [BitVec.getLsbD_allOnes]
    simpa using inside
  exact decided.trans (or_iff_right allYet)

end SuBinary.Sepol
