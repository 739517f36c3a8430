import SuBinary.Foundation.ChainTable
import SuBinary.Foundation.Fold

/-! # The access vector table

`avtab.c` of libsepol: a hash table from a source type, a target type, a class
and a kind of rule to an access vector, a type or an extended-permission node.
-/

namespace SuBinary.Sepol

open SuBinary

/-! ## Keys and data -/

/-- The kind of rule, a single bit of the source's `specified` mask. -/
inductive AvtabSpecified
  | allowed
  | auditallow
  | auditdeny
  | transition
  | member
  | change
  | xpermsAllowed
  | xpermsAuditallow
  | xpermsDontaudit
deriving DecidableEq, Repr

/-- `AVTAB_XPERMS` -/
def AvtabSpecified.isXperms : AvtabSpecified → Bool
  | .xpermsAllowed | .xpermsAuditallow | .xpermsDontaudit => true
  | _ => false

/-- `AVTAB_AV` -/
def AvtabSpecified.isAv : AvtabSpecified → Bool
  | .allowed | .auditallow | .auditdeny => true
  | _ => false

/-- The part of a key that chains are ordered by. -/
structure AvtabTriple where
  sourceType : UInt16
  targetType : UInt16
  targetClass : UInt16
deriving DecidableEq, Repr

structure AvtabKey extends AvtabTriple where
  specified : AvtabSpecified
deriving DecidableEq, Repr

/-- `AVTAB_XPERMS_IOCTLFUNCTION` -/
def xpermsIoctlfunction : UInt8 := 1

/-- `AVTAB_XPERMS_IOCTLDRIVER` -/
def xpermsIoctldriver : UInt8 := 2

/-- `perms` are the 256 bits of the source's eight 32-bit words. -/
structure ExtendedPerms where
  specified : UInt8
  driver : UInt8
  perms : BitVec 256
deriving DecidableEq

/-- Only nodes of an extended kind have an `xperms` record of their own; it is
all zero elsewhere and nothing reads it there. -/
structure AvtabDatum where
  data : BitVec 32
  xperms : ExtendedPerms := { specified := 0, driver := 0, perms := 0 }
deriving DecidableEq

/-! ## The table -/

/-- One round of the MurmurHash3 mixing in `avtab_hash`. -/
def avtabMix (hash input : UInt32) : UInt32 :=
  let v := input * 0xcc9e2d51
  let v := (v <<< 15) ||| (v >>> 17)
  let v := v * 0x1b873593
  let hash := hash ^^^ v
  let hash := (hash <<< 13) ||| (hash >>> 19)
  hash * 5 + 0xe6546b64

def avtabHash (mask : UInt32) (key : AvtabTriple) : Nat :=
  let hash := avtabMix 0 key.targetClass.toUInt32
  let hash := avtabMix hash key.targetType.toUInt32
  let hash := avtabMix hash key.sourceType.toUInt32
  let hash := hash ^^^ (hash >>> 16)
  let hash := hash * 0x85ebca6b
  let hash := hash ^^^ (hash >>> 13)
  let hash := hash * 0xc2b2ae35
  let hash := hash ^^^ (hash >>> 16)
  (hash &&& mask).toNat

/-- The three tests that end a chain walk early. -/
def AvtabTriple.before (key cur : AvtabTriple) : Bool :=
  key.sourceType < cur.sourceType ||
    (key.sourceType == cur.sourceType && key.targetType < cur.targetType) ||
    (key.sourceType == cur.sourceType && key.targetType == cur.targetType &&
      key.targetClass < cur.targetClass)

theorem AvtabTriple.before_strictlyOrders :
    ChainTable.StrictlyOrders AvtabTriple.before where
  irreflexive key := by
    simp [before, UInt16.lt_irrefl]
  transitive first second third := by
    simp only [before, UInt16.lt_iff_toNat_lt, Bool.or_eq_true, Bool.and_eq_true,
      decide_eq_true_eq, beq_iff_eq, ← UInt16.toNat_inj]
    omega

structure Avtab where
  mask : UInt32
  table : ChainTable AvtabTriple AvtabSpecified AvtabDatum AvtabTriple.before
    (avtabHash mask) AvtabSpecified.isXperms

namespace Avtab

/-- The data stored under a key; the first one is what `avtab_search` finds. -/
def data (h : Avtab) (key : AvtabKey) : List AvtabDatum :=
  h.table.data key.toAvtabTriple key.specified

def empty (mask : UInt32) : Avtab where
  mask := mask
  table :=
    { htable := fun _ => []
      orders := AvtabTriple.before_strictlyOrders
      sorted := fun _ => List.Pairwise.nil
      placed := fun _ _ member => nomatch member
      exclusive := fun _ _ _ => by simp [ChainTable.entries] }

end Avtab

def avtabSearch (h : Avtab) (key : AvtabKey) : Option AvtabDatum :=
  h.table.search key.toAvtabTriple key.specified

/-- `none` stands for `SEPOL_EEXIST`; allocation succeeds. -/
def avtabInsert (h : Avtab) (key : AvtabKey) (datum : AvtabDatum) : Option Avtab :=
  (h.table.insert key.toAvtabTriple key.specified datum).map
    fun table => { h with table }

/-- Write through the pointer `avtab_search` returned. -/
def avtabModify (h : Avtab) (key : AvtabKey) (change : AvtabDatum → AvtabDatum) : Avtab :=
  { h with table := h.table.modify key.toAvtabTriple key.specified change }

/-- The nodes of the kinds in `wanted` that `avtab_search_node` and repeated
`avtab_search_node_next` visit under a source, target and class. -/
def avtabNodes (h : Avtab) (key : AvtabTriple) (wanted : AvtabSpecified → Bool) :
    List (ChainTable.Node AvtabTriple AvtabSpecified AvtabDatum) :=
  ChainTable.visit AvtabTriple.before key wanted (h.table.htable (avtabHash h.mask key))

/-! ## The table as a map from keys to data -/

namespace Avtab

theorem search_eq_head? (h : Avtab) (key : AvtabKey) :
    avtabSearch h key = (h.data key).head? :=
  h.table.search_eq_head? _ _

theorem length_data_le_one (h : Avtab) (key : AvtabKey)
    (plain : key.specified.isXperms = false) : (h.data key).length ≤ 1 := by
  simpa [data, ChainTable.data] using
    h.table.exclusive key.toAvtabTriple key.specified plain

theorem data_eq_toList_search (h : Avtab) (key : AvtabKey)
    (plain : key.specified.isXperms = false) : h.data key = (avtabSearch h key).toList := by
  have atMostOne := h.length_data_le_one key plain
  rw [search_eq_head?]
  cases stored : h.data key with
  | nil => rfl
  | cons datum others =>
      have single : others = [] := by
        rw [stored, List.length_cons] at atMostOne
        exact List.length_eq_zero_iff.mp (by omega)
      rw [single]
      rfl

/-- Find-or-insert, the way every rule operation edits the table. -/
def upsert (h : Avtab) (key : AvtabKey) (initial : AvtabDatum)
    (change : AvtabDatum → AvtabDatum) : Avtab :=
  { h with table := h.table.upsert key.toAvtabTriple key.specified initial change }

/-- The source spells find-or-insert out; its insertion cannot be refused. -/
theorem upsert_eq_search (h : Avtab) (key : AvtabKey) (initial : AvtabDatum)
    (change : AvtabDatum → AvtabDatum) :
    (match avtabSearch h key with
      | none => avtabInsert h key (change initial)
      | some _ => some (avtabModify h key change)) =
      some (h.upsert key initial change) := by
  have searched := h.search_eq_head? key
  cases stored : h.data key with
  | nil =>
      rcases ChainTable.exists_insert stored (change initial) with ⟨result, inserted⟩
      simp [searched, stored, avtabInsert, inserted, upsert, ChainTable.upsert,
        ← avtabSearch.eq_def]
  | cons datum rest =>
      simp [searched, stored, avtabModify, upsert, ChainTable.upsert,
        ← avtabSearch.eq_def]

theorem data_upsert (h : Avtab) (key other : AvtabKey) (initial : AvtabDatum)
    (change : AvtabDatum → AvtabDatum) :
    (h.upsert key initial change).data other =
      if key = other then
        change ((h.data other).headD initial) :: (h.data other).tail
      else h.data other := by
  have fields : key = other ↔
      key.toAvtabTriple = other.toAvtabTriple ∧ key.specified = other.specified := by
    cases key
    cases other
    simp
  simp only [fields]
  exact h.table.data_upsert _ _ _ _ _ _

theorem data_foldl_upsert (keys : List AvtabKey) (initial : AvtabDatum)
    (change : AvtabDatum → AvtabDatum)
    (idempotent : ∀ datum, change (change datum) = change datum)
    (h : Avtab) (key : AvtabKey) :
    (keys.foldl (fun h key => h.upsert key initial change) h).data key =
      if key ∈ keys then change ((h.data key).headD initial) :: (h.data key).tail
      else h.data key :=
  foldl_upsert Avtab.data (fun h key => h.upsert key initial change)
    idempotent (fun h key other => h.data_upsert key other initial change) keys h key

theorem mem_avtabNodes (h : Avtab) (key : AvtabTriple) (wanted : AvtabSpecified → Bool)
    (specified : AvtabSpecified) (isWanted : wanted specified = true)
    (datum : AvtabDatum) :
    ⟨key, specified, datum⟩ ∈ avtabNodes h key wanted ↔
      datum ∈ h.data ⟨key, specified⟩ := by
  rw [avtabNodes, ChainTable.visit_eq_entries (h.table.sorted _)]
  simp only [data, ChainTable.data, ChainTable.entries, List.mem_filter, List.mem_map]
  constructor
  · rintro ⟨member, -⟩
    exact ⟨_, ⟨member, by simp⟩, rfl⟩
  · rintro ⟨⟨nodeKey, nodeTag, nodeDatum⟩, ⟨member, same⟩, rfl⟩
    obtain ⟨rfl, rfl⟩ : nodeKey = key ∧ nodeTag = specified := by simpa using same
    exact ⟨member, by simp [isWanted]⟩

theorem key_of_mem_avtabNodes {h : Avtab} {key : AvtabTriple}
    {wanted : AvtabSpecified → Bool}
    {node : ChainTable.Node AvtabTriple AvtabSpecified AvtabDatum}
    (member : node ∈ avtabNodes h key wanted) : node.key = key := by
  rw [avtabNodes, ChainTable.visit_eq_entries (h.table.sorted _)] at member
  have selected := (List.mem_filter.mp member).2
  exact (of_decide_eq_true selected).1

end Avtab

end SuBinary.Sepol
