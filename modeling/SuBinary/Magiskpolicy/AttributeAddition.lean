import SuBinary.Magiskpolicy.Commutation
import SuBinary.Magiskpolicy.TypeNumbering

/-! # Adding an attribute to a type

`add_typeattribute` looks at the result of none of its parts, and of the two lists
of constraints that a class has it updates one.
-/

namespace SuBinary.Magiskpolicy

open SuBinary Sepol

/-! ## Reporting failure -/

def HasTypeAndAttribute (p : Policy) (d a : CString) : Prop :=
  (hashtabSearch p.pTypes.table d).isSome = true ∧
    ∃ attr, hashtabSearch p.pTypes.table a = some attr ∧ attr.flavor = .attrib

def constraintNames (p : Policy) : List (List (List Ebitmap) × List (List Ebitmap)) :=
  p.pClasses.table.data.map fun cls =>
    (cls.constraints.map fun node => node.map ConstraintExpr.names,
      cls.validatetrans.map fun node => node.map ConstraintExpr.names)

/-- The call returns 0 exactly for a type and an attribute, and without them it
changes nothing. -/
def AttraddFailsCleanly (p : Policy) (d a : CString) : Prop :=
  ∃ next result, addTypeattribute p (some d) (some a) = some (next, result) ∧
    (result = 0 ↔ HasTypeAndAttribute p d a) ∧
    (¬HasTypeAndAttribute p d a → next.typeAttrMap = p.typeAttrMap ∧
      next.attrTypeMap = p.attrTypeMap ∧ constraintNames next = constraintNames p)

/-- `attradd` fails cleanly if the type is missing, or if there is nothing to
fail. -/
theorem attradd_fails_cleanly_iff (p : Policy) (d a : CString) :
    AttraddFailsCleanly p d a ↔
      hashtabSearch p.pTypes.table d = none ∨
        (HasTypeAndAttribute p d a ∧ AllPoint p.classValToStruct p.pClasses.nprim) := by
  cases found : hashtabSearch p.pTypes.table d with
  | none =>
      have notBoth : ¬HasTypeAndAttribute p d a := by simp [HasTypeAndAttribute, found]
      refine iff_of_true ⟨p, 1, addTypeattribute_missing found (some a), ?_, ?_⟩ (Or.inl rfl)
      · exact iff_of_false Nat.one_ne_zero notBoth
      · exact fun _ => ⟨rfl, rfl, rfl⟩
  | some domain =>
      have ran := addTypeattribute_found found a
      constructor
      · rintro ⟨next, result, isResult, zeroIff, -⟩
        rw [ran, Option.map_eq_some_iff] at isResult
        rcases isResult with ⟨table, modified, changed⟩
        cases changed
        refine Or.inr ⟨zeroIff.mp rfl, ?_⟩
        by_contra nullPointer
        rw [modifyPointed_eq_none nullPointer] at modified
        cases modified
      · rintro (missing | ⟨both, allPoint⟩)
        · cases missing
        · rw [modifyPointed_eq allPoint _ (updateConstraints_idempotent _ _)] at ran
          exact ⟨_, 0, ran, iff_of_true rfl both, fun notBoth => absurd both notBoth⟩

/-! ## A policy with constraints -/

def mentioning (bit : Nat) : ConstraintExpr where
  exprType := .names
  names := Ebitmap.empty
  typeNames := { bits := [bit], ascending := List.pairwise_singleton _ _ }

/-- The example policy with a constraint that mentions `shell`, and one for
transitions that mentions `domain`. -/
def constrainedPolicy : Policy :=
  { shellPolicy 30 with
    pClasses :=
      { table := Hashtab.single (ascii "file")
          { value := 1
            permissions := Hashtab.single (ascii "read") { value := 1 }
            comdatum := none
            constraints := [[mentioning 0]]
            validatetrans := [[mentioning 1]] }
        nprim := 1 } }

/-- `attradd shell su`, where nothing is called `su`, returns 0 and adds `shell` to
a constraint that mentions the type of value 1. -/
theorem attradd_shell_su : ¬AttraddFailsCleanly constrainedPolicy (ascii "shell") (ascii "su") := by
  rintro ⟨next, result, ran, -, unchanged⟩
  have missing : ¬HasTypeAndAttribute constrainedPolicy (ascii "shell") (ascii "su") := by
    rintro ⟨-, attr, found, -⟩
    have absent : hashtabSearch constrainedPolicy.pTypes.table (ascii "su") = none := rfl
    rw [absent] at found
    cases found
  have named : (addTypeattribute constrainedPolicy (some (ascii "shell")) (some (ascii "su"))).map
      (fun outcome => (constraintNames outcome.1).map fun cls =>
        cls.1.map fun node => node.map Ebitmap.bits) = some [[[[0]]]] := by
    decide +kernel
  rw [ran, Option.map_some, (unchanged missing).2.2] at named
  cases named

/-! ## Reaching the constraints -/

def Mentions (attrBit : Nat) (e : ConstraintExpr) : Prop :=
  e.exprType = .names ∧ attrBit ∈ e.typeNames.bits

/-- The type of bit `bit` is added to the names of an expression that mentions the
attribute; nothing else changes. -/
structure ExprReached (attrBit bit : Nat) (e reached : ConstraintExpr) : Prop where
  exprType : reached.exprType = e.exprType
  typeNames : reached.typeNames = e.typeNames
  names : ∀ other, other ∈ reached.names.bits ↔
    other ∈ e.names.bits ∨ (Mentions attrBit e ∧ other = bit)

def ConstraintsReached (attrBit bit : Nat) :
    List (List ConstraintExpr) → List (List ConstraintExpr) → Prop :=
  List.Forall₂ (List.Forall₂ (ExprReached attrBit bit))

structure ClassReached (attrBit bit : Nat) (entry reached : CString × ClassSymbol) : Prop where
  name : reached.1 = entry.1
  constraints : ConstraintsReached attrBit bit entry.2.constraints reached.2.constraints
  validatetrans : ConstraintsReached attrBit bit entry.2.validatetrans reached.2.validatetrans

/-- The type of value `domain` has the attribute of value `attr` in both maps and in
all constraints, and that is all that has changed there. -/
structure AttributeReached (p next : Policy) (domain attr : Nat) : Prop where
  typeAttrMap : ∀ row bit, HasRowBit next.typeAttrMap row bit ↔
    HasRowBit p.typeAttrMap row bit ∨ (row = domain - 1 ∧ bit = attr - 1)
  attrTypeMap : ∀ row bit, HasRowBit next.attrTypeMap row bit ↔
    HasRowBit p.attrTypeMap row bit ∨ (row = attr - 1 ∧ bit = domain - 1)
  classes : List.Forall₂ (ClassReached (attr - 1) (domain - 1)) p.pClasses.table.entries
    next.pClasses.table.entries

def NamesAlready (attrBit bit : Nat) (e : ConstraintExpr) : Prop :=
  Mentions attrBit e → bit ∈ e.names.bits

theorem exprReached_updateExpr (attrBit bit : Nat) (e : ConstraintExpr) :
    ExprReached attrBit bit e (updateExpr attrBit bit e) := by
  rw [updateExpr]
  split
  · rename_i mentions
    refine ⟨rfl, rfl, fun other => ?_⟩
    have isMentioned : Mentions attrBit e :=
      ⟨mentions.1, by simpa [ebitmapGetBit] using mentions.2⟩
    rw [mem_ebitmapSetBit_true]
    tauto
  · rename_i notMentioned
    refine ⟨rfl, rfl, fun other => ?_⟩
    have notMentions : ¬Mentions attrBit e := by
      rintro ⟨isNames, member⟩
      exact notMentioned ⟨isNames, by simpa [ebitmapGetBit] using member⟩
    tauto

theorem constraintsReached_updateExpr (attrBit bit : Nat)
    (constraints : List (List ConstraintExpr)) :
    ConstraintsReached attrBit bit constraints
      (constraints.map fun node => node.map (updateExpr attrBit bit)) := by
  rw [ConstraintsReached, List.forall₂_map_right_iff, List.forall₂_same]
  intro node _
  rw [List.forall₂_map_right_iff, List.forall₂_same]
  intro e _
  exact exprReached_updateExpr attrBit bit e

theorem exprReached_self_iff (attrBit bit : Nat) (e : ConstraintExpr) :
    ExprReached attrBit bit e e ↔ NamesAlready attrBit bit e := by
  constructor
  · intro reached mentions
    exact (reached.names bit).mpr (Or.inr ⟨mentions, rfl⟩)
  · intro already
    refine ⟨rfl, rfl, fun other => ?_⟩
    constructor
    · exact Or.inl
    · rintro (member | ⟨mentions, rfl⟩)
      · exact member
      · exact already mentions

theorem constraintsReached_self_iff (attrBit bit : Nat)
    (constraints : List (List ConstraintExpr)) :
    ConstraintsReached attrBit bit constraints constraints ↔
      ∀ node, node ∈ constraints → ∀ e, e ∈ node → NamesAlready attrBit bit e := by
  simp only [ConstraintsReached, List.forall₂_same, exprReached_self_iff]

theorem classReached_updateConstraints_iff (attrBit bit : Nat) (entry : CString × ClassSymbol) :
    ClassReached attrBit bit entry (entry.1, updateConstraints attrBit bit entry.2) ↔
      ∀ node, node ∈ entry.2.validatetrans → ∀ e, e ∈ node → NamesAlready attrBit bit e := by
  rw [← constraintsReached_self_iff]
  constructor
  · exact fun reached => reached.validatetrans
  · exact fun validatetrans =>
      ⟨rfl, constraintsReached_updateExpr attrBit bit entry.2.constraints, validatetrans⟩

theorem visitedClass_of_indexed {p : Policy} (indexed : policydbIndexClasses p = (p, true))
    {entry : CString × ClassSymbol} (member : entry ∈ p.pClasses.table.entries) :
    visitedClass p entry.1 = true := by
  have succeeds : (buildIndex p.pClasses.nprim p.classNumbers).2 = true :=
    congrArg Prod.snd indexed
  have array : (buildIndex p.pClasses.nprim p.classNumbers).1 = p.classValToStruct :=
    congrArg (fun result => result.1.classValToStruct) indexed
  have numbered : (entry.1, entry.2.value) ∈ p.classNumbers :=
    List.mem_map_of_mem (f := fun entry => (entry.1, entry.2.value)) member
  have inRange := ((buildIndex_succeeds_iff _ _).mp succeeds).1 _ numbered
  have slot : p.classValToStruct[entry.2.value - 1]? = some (some entry.1) := by
    rw [← array, indexes_buildIndex succeeds, Nat.sub_add_cancel inRange.1]
    exact numbered
  rw [visitedClass, pointsTo, decide_eq_true_eq, List.mem_take_iff_getElem]
  have inside := (List.getElem?_eq_some_iff.mp slot).1
  exact ⟨entry.2.value - 1, by omega, (List.getElem?_eq_some_iff.mp slot).2⟩

theorem mapEntries_reached_iff {p : Policy} (attrBit bit : Nat)
    (indexed : policydbIndexClasses p = (p, true)) :
    List.Forall₂ (ClassReached attrBit bit) p.pClasses.table.entries
        (p.pClasses.table.mapEntries fun key cls =>
          if pointsTo p.classValToStruct p.pClasses.nprim key then
            updateConstraints attrBit bit cls
          else cls).entries ↔
      ∀ cls, cls ∈ p.pClasses.table.data → ∀ node, node ∈ cls.validatetrans →
        ∀ e, e ∈ node → NamesAlready attrBit bit e := by
  rw [Hashtab.mapEntries, List.forall₂_map_right_iff, List.forall₂_same]
  simp only [Hashtab.data, List.forall_mem_map]
  apply forall₂_congr
  intro entry member
  rw [← visitedClass, visitedClass_of_indexed indexed member, if_pos rfl]
  exact classReached_updateConstraints_iff _ _ entry

theorem TypeNumbering.value_inRange {p : Policy} (numbering : TypeNumbering p) {name : CString}
    {type : TypeSymbol} (found : hashtabSearch p.pTypes.table name = some type) :
    1 ≤ type.value ∧ type.value ≤ p.pTypes.nprim := by
  have member := (hashtabSearch_eq_some_iff _ _ _).mp found
  cases primary : type.primary with
  | true => exact numbering.inRange name type member primary
  | false =>
      rcases numbering.aliases name type member primary with
        ⟨other, otherType, otherMember, otherPrimary, sameValue⟩
      rw [← sameValue]
      exact numbering.inRange other otherType otherMember otherPrimary

/-- The call returns, and it has reached both maps and all constraints. -/
def AttraddReachesAll (p : Policy) (d a : CString) (domain attr : Nat) : Prop :=
  ∃ next result, addTypeattribute p (some d) (some a) = some (next, result) ∧
    AttributeReached p next domain attr

/-- `attradd` reaches all constraints if the `validatetrans` lists have nothing to
reach. -/
theorem attradd_reaches_all_iff {p : Policy} (numbering : TypeNumbering p)
    (indexed : policydbIndexClasses p = (p, true)) {d a : CString} {domain attr : TypeSymbol}
    (foundDomain : hashtabSearch p.pTypes.table d = some domain)
    (foundAttr : hashtabSearch p.pTypes.table a = some attr) (isAttr : attr.flavor = .attrib) :
    AttraddReachesAll p d a domain.value attr.value ↔
      AllPoint p.classValToStruct p.pClasses.nprim ∧
        ∀ cls, cls ∈ p.pClasses.table.data → ∀ node, node ∈ cls.validatetrans →
          ∀ e, e ∈ node → NamesAlready (attr.value - 1) (domain.value - 1) e := by
  have value : attrValue p a = some attr.value := by simp [attrValue, foundAttr, isAttr]
  have attrId : getAttrId p a = attr.value := by simp [getAttrId_eq, value]
  have ran := addTypeattribute_found foundDomain a
  by_cases allPoint : AllPoint p.classValToStruct p.pClasses.nprim
  · rw [modifyPointed_eq allPoint _ (updateConstraints_idempotent _ _), setAttr_eq, value,
      attrId] at ran
    have classes := mapEntries_reached_iff (attr.value - 1) (domain.value - 1) indexed
    have domainRange := numbering.value_inRange foundDomain
    have attrRange := numbering.value_inRange foundAttr
    constructor
    · rintro ⟨next, result, isResult, reached⟩
      rw [ran] at isResult
      cases isResult
      exact ⟨allPoint, classes.mp reached.classes⟩
    · rintro ⟨-, named⟩
      refine ⟨_, 0, ran, ?_, ?_, classes.mpr named⟩
      · have inside : domain.value - 1 < p.typeAttrMap.length := by
          rw [numbering.typeRows]
          omega
        exact hasRowBit_setRowBit_of_lt inside _
      · have inside : attr.value - 1 < p.attrTypeMap.length := by
          rw [numbering.attrRows]
          omega
        exact hasRowBit_setRowBit_of_lt inside _
  · rw [modifyPointed_eq_none allPoint] at ran
    refine iff_of_false ?_ fun both => allPoint both.1
    rintro ⟨next, result, isResult, -⟩
    rw [ran] at isResult
    cases isResult

/-- `attradd shell domain` passes over the constraint for transitions. -/
theorem attradd_shell_domain :
    ¬AttraddReachesAll constrainedPolicy (ascii "shell") (ascii "domain") 1 2 := by
  rintro ⟨next, result, ran, reached⟩
  have passedOver : (addTypeattribute constrainedPolicy (some (ascii "shell"))
      (some (ascii "domain"))).map (fun outcome => outcome.1.pClasses.table.entries.map
        fun entry => entry.2.validatetrans.map fun node => node.map fun e => e.names.bits) =
      some [[[[]]]] := by
    decide +kernel
  rw [ran, Option.map_some, Option.some.injEq] at passedOver
  have classes : List.Forall₂ (ClassReached 1 0) constrainedPolicy.pClasses.table.entries
      next.pClasses.table.entries := reached.classes
  rcases List.forall₂_cons_left_iff.mp classes with ⟨file, others, fileReached, -, isEntries⟩
  have validatetrans : ConstraintsReached 1 0 [[mentioning 1]] file.2.validatetrans :=
    fileReached.validatetrans
  rcases List.forall₂_cons_left_iff.mp validatetrans with ⟨node, nodes, nodeReached, -, isList⟩
  rcases List.forall₂_cons_left_iff.mp nodeReached with ⟨expr, exprs, exprReached, -, isNode⟩
  have named := (exprReached.names 0).mpr
    (Or.inr ⟨⟨rfl, List.mem_singleton_self 1⟩, rfl⟩)
  rw [isEntries, List.map_cons, isList, List.map_cons, isNode, List.map_cons] at passedOver
  simp only [List.cons.injEq] at passedOver
  rw [passedOver.1.1.1] at named
  cases named

/-- The example policy with two constraints that mention `domain`. The one for transitions has
`shell` among its names. -/
def namingPolicy : Policy :=
  { shellPolicy 30 with
    pClasses :=
      { table := Hashtab.single (ascii "file")
          { value := 1
            permissions := Hashtab.single (ascii "read") { value := 1 }
            comdatum := none
            constraints := [[mentioning 1]]
            validatetrans := [[{ mentioning 1 with
              names := { bits := [0], ascending := List.pairwise_singleton _ _ } }]] }
        nprim := 1 } }

/-- `attradd shell domain` reaches the constraint, and has nothing to do for the one for
transitions. -/
theorem attradd_reaches_all_shell :
    constraintNames namingPolicy = [([[Ebitmap.empty]],
        [[{ bits := [0], ascending := List.pairwise_singleton _ _ }]])] ∧
      AttraddReachesAll namingPolicy (ascii "shell") (ascii "domain") 1 2 := by
  have numbering : TypeNumbering namingPolicy :=
    (typeNumbering_shellPolicy 30).of_keepsTypes ⟨rfl, rfl, rfl, rfl, rfl⟩
  have shell : hashtabSearch namingPolicy.pTypes.table (ascii "shell") =
      some { value := 1, primary := true, flavor := .type } := rfl
  have domain : hashtabSearch namingPolicy.pTypes.table (ascii "domain") =
      some { value := 2, primary := true, flavor := .attrib } := rfl
  refine ⟨rfl, (attradd_reaches_all_iff numbering rfl shell domain rfl).mpr ⟨?_, ?_⟩⟩
  · intro slot inside
    exact ⟨ascii "file", by cases Nat.lt_one_iff.mp inside; rfl⟩
  · intro cls member node inList e inNode _
    cases List.mem_singleton.mp member
    cases List.mem_singleton.mp inList
    cases List.mem_singleton.mp inNode
    exact List.mem_singleton_self 0

end SuBinary.Magiskpolicy
