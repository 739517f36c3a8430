import SuBinary.Magiskpolicy.OperationEffect

/-! # Numbers of types

Types are numbered from one in the order of their declaration. The index arrays
and the attribute maps go by these numbers, and a new type extends all of them.
-/

namespace SuBinary.Magiskpolicy

open SuBinary Sepol

/-! ## The invariant -/

/-- Primary entries have numbers of their own, other entries the number of a
primary one; the arrays lead from numbers to primary entries, and each number
has a row in both attribute maps. -/
structure TypeNumbering (p : Policy) : Prop where
  inRange : ∀ name type, (name, type) ∈ p.pTypes.table.entries → type.primary = true →
    1 ≤ type.value ∧ type.value ≤ p.pTypes.nprim
  distinct : ∀ name type other otherType, (name, type) ∈ p.pTypes.table.entries →
    (other, otherType) ∈ p.pTypes.table.entries → type.primary = true →
    otherType.primary = true → type.value = otherType.value → name = other
  aliases : ∀ name type, (name, type) ∈ p.pTypes.table.entries → type.primary = false →
    ∃ other otherType, (other, otherType) ∈ p.pTypes.table.entries ∧
      otherType.primary = true ∧ otherType.value = type.value
  structs : p.typeValToStruct.length = p.pTypes.nprim ∧
    Indexes p.typeValToStruct p.typeNumbers
  names : p.typeValToName.length = p.pTypes.nprim ∧ Indexes p.typeValToName p.typeNumbers
  typeRows : p.typeAttrMap.length = p.pTypes.nprim
  attrRows : p.attrTypeMap.length = p.pTypes.nprim

structure KeepsTypes (p next : Policy) : Prop where
  pTypes : next.pTypes = p.pTypes
  names : next.typeValToName = p.typeValToName
  structs : next.typeValToStruct = p.typeValToStruct
  typeRows : next.typeAttrMap.length = p.typeAttrMap.length
  attrRows : next.attrTypeMap.length = p.attrTypeMap.length

theorem TypeNumbering.of_keepsTypes {p next : Policy} (numbering : TypeNumbering p)
    (keeps : KeepsTypes p next) : TypeNumbering next := by
  have sameNumbers : next.typeNumbers = p.typeNumbers := by
    simp only [Policy.typeNumbers, keeps.pTypes]
  exact
    { inRange := keeps.pTypes ▸ numbering.inRange
      distinct := keeps.pTypes ▸ numbering.distinct
      aliases := keeps.pTypes ▸ numbering.aliases
      structs := by
        rw [keeps.structs, keeps.pTypes, sameNumbers]
        exact numbering.structs
      names := by
        rw [keeps.names, keeps.pTypes, sameNumbers]
        exact numbering.names
      typeRows := by rw [keeps.typeRows, keeps.pTypes, numbering.typeRows]
      attrRows := by rw [keeps.attrRows, keeps.pTypes, numbering.attrRows] }

theorem keepsTypes_setAttr (p : Policy) (name : CString) (value : Nat) :
    KeepsTypes p (setAttr p name value).1 := by
  have maps := changesMaps_setAttr p name value
  have others := maps.others
  exact ⟨by rw [others], by rw [others], by rw [others], maps.typeRows, maps.attrRows⟩

theorem Executes.keepsTypes {p next : Policy} {call : PolicyCall} (executes : Executes p call next)
    (plain : ¬IsNamedTransition call) (noNew : ∀ d, ¬CreatesNew p d call) :
    KeepsTypes p next := by
  cases executes with
  | rules teAvtab permissiveMap _ => exact ⟨rfl, rfl, rfl, rfl, rfl⟩
  | sets domainS attr domain table isCall found =>
      have keeps := keepsTypes_setAttr p attr domain.value
      exact ⟨keeps.pTypes, keeps.names, keeps.structs, keeps.typeRows, keeps.attrRows⟩
  | creates d isNew next result ran => exact absurd isNew (noNew d)
  | named pTypes filenameTrans isNamed => exact absurd isNamed plain

/-! ## New types -/

theorem addRoleType_idempotent (bit : Nat) (role : RoleDatum) :
    addRoleType bit (addRoleType bit role) = addRoleType bit role := by
  have negset : ebitmapSetBit (ebitmapSetBit role.negset bit false) bit false =
      ebitmapSetBit role.negset bit false := by
    apply Ebitmap.ext_mem
    intro other
    by_cases same : other = bit <;> simp [mem_ebitmapSetBit, same]
  have types : ebitmapSetBit (ebitmapSetBit role.types bit true) bit true =
      ebitmapSetBit role.types bit true := by
    apply Ebitmap.ext_mem
    intro other
    simp
  simp [addRoleType, negset, types]

theorem addToRoles_reindexed {p next : Policy} {bit : Nat} (rolesNumbered : p.pRoles.nprim ≠ 0)
    (indexed : (symtabIndex p.pRoles.nprim p.roleNumbers).2 = true)
    (array : p.roleValToStruct = (symtabIndex p.pRoles.nprim p.roleNumbers).1)
    (ran : addToRoles p bit = some next) :
    next.pRoles.table = p.pRoles.table.mapEntries fun _ role => addRoleType bit role := by
  rw [symtabIndex, if_neg rolesNumbered] at indexed array
  have allPoint : AllPoint p.roleValToStruct p.pRoles.nprim := by
    by_contra nullPointer
    simp [addToRoles, modifyPointed_eq_none nullPointer] at ran
  rw [addToRoles, modifyPointed_eq allPoint _ (addRoleType_idempotent bit)] at ran
  cases ran
  simp only [Hashtab.mapEntries, Hashtab.mk.injEq]
  apply List.map_congr_left
  intro entry member
  have reached : pointsTo p.roleValToStruct p.pRoles.nprim entry.1 = true := by
    have numbered : (entry.1, entry.2.value) ∈ p.roleNumbers :=
      List.mem_map_of_mem (f := fun entry => (entry.1, entry.2.value)) member
    have inRange := ((buildIndex_succeeds_iff _ _).mp indexed).1 _ numbered
    have slot : p.roleValToStruct[entry.2.value - 1]? = some (some entry.1) := by
      rw [array, indexes_buildIndex indexed, Nat.sub_add_cancel inRange.1]
      exact numbered
    rw [pointsTo, decide_eq_true_eq, List.mem_take_iff_getElem]
    have inside := (List.getElem?_eq_some_iff.mp slot).1
    exact ⟨entry.2.value - 1, by omega, (List.getElem?_eq_some_iff.mp slot).2⟩
  simp [reached]

/-- The policy that `create_domain` hands to `set_attr`: the type is declared,
the arrays are rebuilt and the roles have the type. -/
structure Enters (p : Policy) (d : CString) (entered : Policy) : Prop where
  entries : entered.pTypes.table.entries.Perm ((d, newType p) :: p.pTypes.table.entries)
  nprim : entered.pTypes.nprim = p.pTypes.nprim + 1
  indexed : (buildIndex entered.pTypes.nprim entered.typeNumbers).2 = true
  structs : entered.typeValToStruct =
    (buildIndex entered.pTypes.nprim entered.typeNumbers).1
  names : entered.typeValToName = (buildIndex entered.pTypes.nprim entered.typeNumbers).1
  typeRows : entered.typeAttrMap =
    setRowBit (growRows p.typeAttrMap (p.pTypes.nprim + 1) p.pTypes.nprim)
      p.pTypes.nprim p.pTypes.nprim
  attrRows : entered.attrTypeMap = growRows p.attrTypeMap (p.pTypes.nprim + 1) p.pTypes.nprim
  roles : p.pRoles.nprim ≠ 0 → entered.pRoles.table =
    p.pRoles.table.mapEntries fun _ role => addRoleType p.pTypes.nprim role
  noRoles : p.pRoles.nprim = 0 → entered.pRoles.table = p.pRoles.table

theorem addToRoles_noRoles {p next : Policy} {bit : Nat} (noNumber : p.pRoles.nprim = 0)
    (ran : addToRoles p bit = some next) : next.pRoles.table = p.pRoles.table := by
  rw [addToRoles, noNumber] at ran
  cases ran
  rfl

theorem createDomain_enters {p next : Policy} {d : CString} {result : Nat}
    (fresh : hashtabSearch p.pTypes.table d = none)
    (rebuilt : (reindex (declareType p d).1).2 = true)
    (ran : createDomain p (some d) = some (next, result)) :
    ∃ entered, Enters p d entered ∧
      (next, result) = setAttr entered (ascii "domain") (p.pTypes.nprim + 1) := by
  rw [createDomain_fresh fresh, if_neg (by simp [rebuilt])] at ran
  rcases Option.map_eq_some_iff.mp ran with ⟨entered, intoRoles, changed⟩
  refine ⟨entered, ?_, changed.symm⟩
  rcases declareType_fresh fresh with ⟨table, permuted, declared⟩
  rcases reindex_succeeds rebuilt with ⟨rolesIndexed, typesIndexed, classes, reindexed⟩
  have rolesReached := fun numbered =>
    @addToRoles_reindexed (reindex (declareType p d).1).1 entered p.pTypes.nprim numbered
  have rolesLeft := fun noNumber => addToRoles_noRoles noNumber intoRoles
  rw [reindexed] at intoRoles rolesReached rolesLeft
  rcases Option.bind_eq_some_iff.mp intoRoles with ⟨roleTable, -, isEntered⟩
  cases isEntered
  rw [declared] at rolesIndexed typesIndexed rolesReached rolesLeft intoRoles ⊢
  have numbered : p.pTypes.nprim + 1 ≠ 0 := Nat.succ_ne_zero _
  dsimp only at typesIndexed
  rw [symtabIndex, if_neg numbered] at typesIndexed
  exact
    { entries := permuted
      nprim := rfl
      indexed := typesIndexed
      structs := by simp only [symtabIndex, if_neg numbered]; rfl
      names := by simp only [symtabIndex, if_neg numbered]; rfl
      typeRows := rfl
      attrRows := rfl
      roles := fun rolesNumbered => rolesReached rolesNumbered rolesIndexed rfl intoRoles
      noRoles := rolesLeft }

/-- The new type is no attribute, so it does not change which names are. -/
theorem Enters.attrValue_eq {p entered : Policy} {d : CString} (enters : Enters p d entered)
    (fresh : hashtabSearch p.pTypes.table d = none) (name : CString) :
    attrValue entered name = attrValue p name := by
  by_cases isNew : name = d
  · have found : hashtabSearch entered.pTypes.table name = some (newType p) := by
      rw [hashtabSearch_eq_some_iff, enters.entries.mem_iff, isNew]
      exact List.mem_cons_self
    rw [attrValue, attrValue, found, isNew, fresh]
    simp [newType]
  · have same : hashtabSearch entered.pTypes.table name = hashtabSearch p.pTypes.table name := by
      apply Option.ext
      intro type
      rw [hashtabSearch_eq_some_iff, hashtabSearch_eq_some_iff, enters.entries.mem_iff]
      simp [isNew]
    rw [attrValue, attrValue, same]

theorem typeNumbering_shellPolicy (policyvers : Nat) : TypeNumbering (shellPolicy policyvers) := by
  have indexed : (buildIndex 2 (shellPolicy policyvers).typeNumbers).2 = true := rfl
  have indexes := indexes_buildIndex indexed
  have twoTypes : ∀ name type, (name, type) ∈ (shellPolicy policyvers).pTypes.table.entries →
      (name, type) = (ascii "shell", { value := 1, primary := true, flavor := .type }) ∨
        (name, type) = (ascii "domain", { value := 2, primary := true, flavor := .attrib }) := by
    simp [shellPolicy]
  constructor
  case inRange =>
    intro name type member primary
    rcases twoTypes name type member with same | same
    · cases same
      simp [shellPolicy]
    · cases same
      simp [shellPolicy]
  case distinct =>
    intro name type other otherType member otherMember _ _ sameValue
    rcases twoTypes name type member with same | same
    · rcases twoTypes other otherType otherMember with otherSame | otherSame
      · cases same
        cases otherSame
        rfl
      · cases same
        cases otherSame
        cases sameValue
    · rcases twoTypes other otherType otherMember with otherSame | otherSame
      · cases same
        cases otherSame
        cases sameValue
      · cases same
        cases otherSame
        rfl
  case aliases =>
    intro name type member notPrimary
    rcases twoTypes name type member with same | same
    · cases same
      cases notPrimary
    · cases same
      cases notPrimary
  case structs => exact ⟨rfl, indexes⟩
  case names => exact ⟨rfl, indexes⟩
  case typeRows => rfl
  case attrRows => rfl

end SuBinary.Magiskpolicy
