import SuBinary.Foundation.ValueIndex
import SuBinary.Sepol.FilenameTrans
import SuBinary.Sepol.Symtab

/-! # The whole policy database

`policydb_t` as far as the operations of `sepolicy.c` read and change it, the
rebuild of its index arrays, and the attribute maps that the loader makes. The
rule functions see the part of it that `Policydb` holds.
-/

namespace SuBinary.Sepol

open SuBinary

/-! ## Symbols -/

inductive TypeFlavor
  | type
  | attrib
  | alias
deriving DecidableEq

structure TypeSymbol extends TypeDatum where
  primary : Bool
  flavor : TypeFlavor
deriving DecidableEq

/-- `CEXPR_NOT` to `CEXPR_NAMES` -/
inductive CexprType
  | not
  | and
  | or
  | attr
  | names
deriving DecidableEq

/-- `typeNames` are the `types` of the source's `type_names`. -/
structure ConstraintExpr where
  exprType : CexprType
  names : Ebitmap
  typeNames : Ebitmap

/-- A node of a list of constraints is given by its expressions. -/
structure ClassSymbol extends ClassDatum where
  constraints : List (List ConstraintExpr)
  validatetrans : List (List ConstraintExpr)

/-- `types` and `negset` are the two bitmaps of the role's type set. -/
structure RoleDatum where
  value : Nat
  types : Ebitmap
  negset : Ebitmap

inductive Scope
  | req
  | decl
deriving DecidableEq

structure ScopeDatum where
  scope : Scope
  declIds : List Nat

structure Symtab (Datum : Type) where
  table : Hashtab Datum
  nprim : Nat

def typesSize : UInt32 := 512

/-! ## The database -/

/-- The `ValToStruct` arrays hold pointers to the data of table entries; such a
pointer is given by the key of its entry. Users, booleans, levels and
categories are left out: no operation changes them. -/
structure Policy where
  policyvers : Nat
  pTypes : Symtab TypeSymbol
  pClasses : Symtab ClassSymbol
  pRoles : Symtab RoleDatum
  typeScope : Hashtab ScopeDatum
  declaredTypes : Ebitmap
  typeValToName : List (Option CString)
  typeValToStruct : List (Option CString)
  classValToStruct : List (Option CString)
  roleValToStruct : List (Option CString)
  teAvtab : Avtab
  filenameTrans : FilenameTransTable
  permissiveMap : Ebitmap
  typeAttrMap : List Ebitmap
  attrTypeMap : List Ebitmap

namespace Policy

def toPolicydb (p : Policy) : Policydb where
  pTypes := p.pTypes.table.mapEntries fun _ type => type.toTypeDatum
  pClasses := p.pClasses.table.mapEntries fun _ cls => cls.toClassDatum
  teAvtab := p.teAvtab
  typeAttrMap := p.typeAttrMap

/-- The primary entries of the type table, with their values. -/
def typeNumbers (p : Policy) : List (CString × Nat) :=
  (p.pTypes.table.entries.filter fun entry => entry.2.primary).map fun entry =>
    (entry.1, entry.2.value)

def roleNumbers (p : Policy) : List (CString × Nat) :=
  p.pRoles.table.entries.map fun entry => (entry.1, entry.2.value)

def classNumbers (p : Policy) : List (CString × Nat) :=
  p.pClasses.table.entries.map fun entry => (entry.1, entry.2.value)

def typeOfBit (p : Policy) (bit : Nat) : Option TypeSymbol :=
  match p.typeValToStruct[bit]? with
  | some (some name) => hashtabSearch p.pTypes.table name
  | _ => none

def isPlainType (p : Policy) (bit : Nat) : Bool :=
  (p.typeOfBit bit).any fun type => type.flavor ≠ .attrib

end Policy

/-! ## Index arrays -/

/-- Whether `type_set_expand` succeeds on the types of a role: each has to be a
known type. -/
def typeSetExpands (p : Policy) (types : Ebitmap) : Bool :=
  types.bits.all fun bit =>
    decide (bit < p.pTypes.nprim) && (p.typeValToStruct[bit]?.join).isSome

/-- The array of one symbol table; a table without values is not visited. -/
def symtabIndex (nprim : Nat) (numbered : List (CString × Nat)) : List (Option CString) × Bool :=
  if nprim = 0 then ([], true) else buildIndex nprim numbered

def policydbIndexClasses (p : Policy) : Policy × Bool :=
  let classes := buildIndex p.pClasses.nprim p.classNumbers
  ({ p with classValToStruct := classes.1 }, classes.2)

/-- The flag is false where the source returns an error. Roles come before
types, and the types of the roles are expanded at the end. -/
def policydbIndexOthers (p : Policy) : Policy × Bool :=
  let roles := symtabIndex p.pRoles.nprim p.roleNumbers
  let p :=
    { p with
      roleValToStruct := roles.1
      typeValToStruct := List.replicate p.pTypes.nprim none }
  if roles.2 = false then (p, false)
  else
    let types := symtabIndex p.pTypes.nprim p.typeNumbers
    let p := { p with typeValToName := types.1, typeValToStruct := types.1 }
    if types.2 = false then (p, false)
    else (p, p.pRoles.table.data.all fun role => typeSetExpands p role.types)

/-! ## Attribute maps -/

/-- What the loader does with row `i`: its bits are entered in the other map,
and the type itself in both. An attribute does not have itself. -/
def readAttrRow (isPlainType : Nat → Bool) (nprim : Nat)
    (maps : List Ebitmap × List Ebitmap) (entry : Ebitmap × Nat) :
    Option (List Ebitmap × List Ebitmap) :=
  let (row, i) := entry
  let others := row.bits.filter (· ≠ i)
  if others.all (· < nprim) then
    let attrTypeMap := others.foldl (fun rows j => setRowBit rows j i) maps.2
    some (maps.1.set i (ebitmapSetBit row i true),
      if isPlainType i then setRowBit attrTypeMap i i else attrTypeMap)
  else none

/-- The attribute maps that `policydb_read` makes from the rows of the file. A
version without these rows counts as one in which they are empty. -/
def readAttrMaps (isPlainType : Nat → Bool) (rows : List Ebitmap) :
    Option (List Ebitmap × List Ebitmap) :=
  rows.zipIdx.foldlM (readAttrRow isPlainType rows.length)
    (List.replicate rows.length Ebitmap.empty, List.replicate rows.length Ebitmap.empty)

/-! ## An example -/

theorem shell_domain_distinct : [ascii "shell", ascii "domain"].Nodup := by
  decide

theorem both_ascending : [0, 1].Pairwise (· < ·) :=
  List.pairwise_pair.mpr Nat.zero_lt_one

theorem first_ascending : [0].Pairwise (· < ·) :=
  List.pairwise_singleton _ _

theorem second_ascending : [1].Pairwise (· < ·) :=
  List.pairwise_singleton _ _

/-- The type `shell` with its attribute `domain`, the class `file` with the
permission `read`, and the role `object_r`. -/
def shellPolicy (policyvers : Nat) : Policy where
  policyvers := policyvers
  pTypes :=
    { table :=
        { entries :=
            [(ascii "shell", { value := 1, primary := true, flavor := .type }),
              (ascii "domain", { value := 2, primary := true, flavor := .attrib })]
          distinct := shell_domain_distinct }
      nprim := 2 }
  pClasses :=
    { table := Hashtab.single (ascii "file")
        { value := 1
          permissions := Hashtab.single (ascii "read") { value := 1 }
          comdatum := none
          constraints := []
          validatetrans := [] }
      nprim := 1 }
  pRoles :=
    { table := Hashtab.single (ascii "object_r")
        { value := 1, types := Ebitmap.empty, negset := Ebitmap.empty }
      nprim := 1 }
  typeScope := Hashtab.empty
  declaredTypes := Ebitmap.empty
  typeValToName := [some (ascii "shell"), some (ascii "domain")]
  typeValToStruct := [some (ascii "shell"), some (ascii "domain")]
  classValToStruct := [some (ascii "file")]
  roleValToStruct := [some (ascii "object_r")]
  teAvtab := Avtab.empty 0
  filenameTrans := PointerTable.empty
  permissiveMap := Ebitmap.empty
  typeAttrMap :=
    [{ bits := [0, 1], ascending := both_ascending },
      { bits := [1], ascending := second_ascending }]
  attrTypeMap :=
    [{ bits := [0], ascending := first_ascending },
      { bits := [0], ascending := first_ascending }]

end SuBinary.Sepol
