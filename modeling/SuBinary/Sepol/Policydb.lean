import SuBinary.Foundation.CString
import SuBinary.Sepol.Avtab

/-! # The policy database

The parts of libsepol's `policydb_t` that the policy operations read and
change.
-/

namespace SuBinary.Sepol

open SuBinary

/-! ## Bitmaps -/

/-- `ebitmap_t`: the positions of the set bits, in the ascending order in which
`ebitmap_for_each_bit` meets them. -/
structure Ebitmap where
  bits : List Nat
  ascending : bits.Pairwise (· < ·)

def Ebitmap.empty : Ebitmap where
  bits := []
  ascending := List.Pairwise.nil

/-! ## Symbol tables -/

/-- `hashtab_t` with string keys: the entries in the order in which
`hashtab_for_each` meets them. -/
structure Hashtab (Datum : Type) where
  entries : List (CString × Datum)
  distinct : (entries.map Prod.fst).Nodup

namespace Hashtab

def data (h : Hashtab Datum) : List Datum := h.entries.map Prod.snd

def empty : Hashtab Datum where
  entries := []
  distinct := List.nodup_nil

def single (name : CString) (datum : Datum) : Hashtab Datum where
  entries := [(name, datum)]
  distinct := by simp

end Hashtab

def hashtabSearch (h : Hashtab Datum) (key : CString) : Option Datum :=
  h.entries.lookup key

theorem hashtabSearch_eq_some_iff (h : Hashtab Datum) (key : CString) (datum : Datum) :
    hashtabSearch h key = some datum ↔ (key, datum) ∈ h.entries := by
  constructor
  · intro found
    rcases List.lookup_eq_some_iff.mp found with ⟨front, back, split, -⟩
    simp [split]
  · intro member
    rcases List.append_of_mem member with ⟨front, back, split⟩
    refine List.lookup_eq_some_iff.mpr ⟨front, back, split, fun entry earlier => ?_⟩
    have distinct := h.distinct
    rw [split, List.map_append, List.map_cons] at distinct
    have apart := (List.nodup_append.mp distinct).2.2 entry.1
      (List.mem_map_of_mem earlier) key List.mem_cons_self
    simpa using Ne.symm apart

theorem hashtabSearch_eq_none_iff (h : Hashtab Datum) (key : CString) :
    hashtabSearch h key = none ↔ key ∉ h.entries.map Prod.fst := by
  rw [Option.eq_none_iff_forall_ne_some]
  simp only [ne_eq, hashtabSearch_eq_some_iff, List.mem_map, Prod.exists, exists_and_right,
    exists_eq_right, not_exists]

theorem mem_data_of_hashtabSearch {h : Hashtab Datum} {key : CString} {datum : Datum}
    (found : hashtabSearch h key = some datum) : datum ∈ h.data :=
  List.mem_map.mpr ⟨_, (hashtabSearch_eq_some_iff h key datum).mp found, rfl⟩

structure TypeDatum where
  value : Nat
deriving DecidableEq

structure PermDatum where
  value : Nat
deriving DecidableEq

structure CommonDatum where
  permissions : Hashtab PermDatum

structure ClassDatum where
  value : Nat
  permissions : Hashtab PermDatum
  comdatum : Option CommonDatum

/-! ## The database -/

structure Policydb where
  pTypes : Hashtab TypeDatum
  pClasses : Hashtab ClassDatum
  teAvtab : Avtab
  typeAttrMap : List Ebitmap

namespace Policydb

/-- Row `type - 1` of `type_attr_map`: the types and attributes, less one, that
`type` carries. -/
def typeAttrs (db : Policydb) (type : Nat) : Ebitmap :=
  (db.typeAttrMap[type - 1]?).getD Ebitmap.empty

def Carries (db : Policydb) (type attr : Nat) : Prop :=
  attr - 1 ∈ (db.typeAttrs type).bits

/-- Symbol values fit the fields they are copied to: types and classes the
16-bit members of an avtab key, permissions the 32-bit access vector. -/
structure ValuesFit (db : Policydb) : Prop where
  types : ∀ type, type ∈ db.pTypes.data → type.value < 2 ^ 16
  classes : ∀ cls, cls ∈ db.pClasses.data → cls.value < 2 ^ 16
  perms : ∀ cls, cls ∈ db.pClasses.data → ∀ perm, perm ∈ cls.permissions.data →
    1 ≤ perm.value ∧ perm.value ≤ 32
  commons : ∀ cls, cls ∈ db.pClasses.data → ∀ common, common ∈ cls.comdatum →
    ∀ perm, perm ∈ common.permissions.data → 1 ≤ perm.value ∧ perm.value ≤ 32

end Policydb

/-- A database as the policy compiler makes it and the loader accepts it:
values start at one, the type space ends at `UINT16_MAX`, a class has at most
32 permissions, and `type_attr_map` names only existing types. -/
structure KernelPolicydb extends Policydb where
  fit : toPolicydb.ValuesFit
  typesPositive : ∀ type, type ∈ toPolicydb.pTypes.data → 1 ≤ type.value
  attrsFit : ∀ type attr, attr ∈ (toPolicydb.typeAttrs type).bits → attr + 1 < 2 ^ 16

/-- A database with the type `shell`, its attribute `domain` and the class
`file` with the permission `read`. -/
def shellPolicydb (teAvtab : Avtab) : KernelPolicydb where
  pTypes :=
    { entries := [(ascii "shell", { value := 1 }), (ascii "domain", { value := 2 })]
      distinct := by decide }
  pClasses :=
    Hashtab.single (ascii "file")
      { value := 1
        permissions := Hashtab.single (ascii "read") { value := 1 }
        comdatum := none }
  teAvtab := teAvtab
  typeAttrMap :=
    [{ bits := [0, 1], ascending := by decide }, { bits := [1], ascending := by decide }]
  fit :=
    { types := by simp [Hashtab.data]
      classes := by simp [Hashtab.data, Hashtab.single]
      perms := by simp [Hashtab.data, Hashtab.single]
      commons := by simp [Hashtab.data, Hashtab.single] }
  typesPositive := by simp [Hashtab.data]
  attrsFit := by
    intro type attr member
    rcases row : type - 1 with - | - | later
    · simp [Policydb.typeAttrs, row] at member
      omega
    · simp [Policydb.typeAttrs, row] at member
      omega
    · simp [Policydb.typeAttrs, row, Ebitmap.empty] at member

end SuBinary.Sepol
