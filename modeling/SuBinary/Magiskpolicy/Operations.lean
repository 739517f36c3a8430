import SuBinary.Foundation.Runs
import SuBinary.Magiskpolicy.Parser
import SuBinary.Magiskpolicy.RuleEffect
import SuBinary.Sepol.Policy

/-! # Operations on the policy

The functions of `sepolicy.c` that work on more of the database than its rules,
and the operations of `api.c`. A null pointer that is followed, also as the key
of `hashtab_search`, ends the program, and so does one to an object that is gone.
-/

namespace SuBinary.Magiskpolicy

open SuBinary Sepol

/-- The policy and the return value; `none` is a crash or a read through a dead
pointer. -/
abbrev Outcome := Option (Policy × Nat)

def onRules (operation : Policydb → Policydb × Nat) (p : Policy) : Policy × Nat :=
  let result := operation p.toPolicydb
  ({ p with teAvtab := result.1.teAvtab }, result.2)

/-! ## Lookups -/

inductive SymbolError
  | sourceType (name : CString)
  | targetType (name : CString)
  | cls (name : CString)
  | defaultType (name : CString)
  | type (name : CString)
deriving DecidableEq

def SymbolError.message : SymbolError → CString
  | .sourceType name => ascii "source type " ++ name ++ ascii " does not exist\n"
  | .targetType name => ascii "target type " ++ name ++ ascii " does not exist\n"
  | .cls name => ascii "class " ++ name ++ ascii " does not exist\n"
  | .defaultType name => ascii "default type " ++ name ++ ascii " does not exist\n"
  | .type name => ascii "type " ++ name ++ ascii " does not exist\n"

def findSymbol (table : Hashtab Datum) (missing : CString → SymbolError) (name : CString) :
    Except SymbolError Datum :=
  match hashtabSearch table name with
  | none => .error (missing name)
  | some datum => .ok datum

/-! ## Attributes -/

/-- A name that is no attribute yields the value 1. -/
def getAttrId (p : Policy) (type : CString) : Nat :=
  match hashtabSearch p.pTypes.table type with
  | none => 1
  | some attr => if attr.flavor ≠ .attrib then 1 else attr.value

def setAttr (p : Policy) (type : CString) (value : Nat) : Policy × Nat :=
  match hashtabSearch p.pTypes.table type with
  | none => (p, 1)
  | some attr =>
      if attr.flavor ≠ .attrib then (p, 1)
      else
        ({ p with
            typeAttrMap := setRowBit p.typeAttrMap (value - 1) (attr.value - 1)
            attrTypeMap := setRowBit p.attrTypeMap (attr.value - 1) (value - 1) }, 0)

/-- The update of one constraint expression for a type that gets the attribute
of bit `attrBit`. -/
def updateExpr (attrBit bit : Nat) (e : ConstraintExpr) : ConstraintExpr :=
  if e.exprType = .names ∧ ebitmapGetBit e.typeNames attrBit then
    { e with names := ebitmapSetBit e.names bit true }
  else e

/-- Only `constraints` are updated, not `validatetrans`. -/
def updateConstraints (attrBit bit : Nat) (cls : ClassSymbol) : ClassSymbol :=
  { cls with constraints := cls.constraints.map fun node => node.map (updateExpr attrBit bit) }

/-- The result of `set_attr` is not looked at. -/
def addTypeattribute (p : Policy) (domainS attr : Option CString) : Outcome := do
  let domainS ← domainS
  match findSymbol p.pTypes.table .sourceType domainS with
  | .error _ => return (p, 1)
  | .ok domain =>
      let attr ← attr
      let p := (setAttr p attr domain.value).1
      let typeId := getAttrId p attr
      let table ← modifyPointed p.classValToStruct p.pClasses.nprim
        (updateConstraints (typeId - 1) (domain.value - 1)) p.pClasses.table
      return ({ p with pClasses := { p.pClasses with table } }, 0)

/-! ## New types -/

/-- The scope of a symbol that is declared in block 1, and whether `symtab_insert`
reports a conflict. -/
def declareScope (table : Hashtab ScopeDatum) (key : CString) : Hashtab ScopeDatum × Bool :=
  match hashtabSearch table key with
  | none =>
      ((hashtabInsert typesSize table key { scope := .decl, declIds := [1] }).getD table, false)
  | some datum =>
      if datum.scope = .decl then (table, true)
      else
        (table.modify key fun datum =>
          { scope := .decl
            declIds := if 1 ∈ datum.declIds then datum.declIds else datum.declIds ++ [1] },
          false)

/-- `symtab_insert` into the type table; the number is the value it assigns.
The scope is entered after the symbol, and a conflict there is not undone. -/
def symtabInsert (p : Policy) (key : CString) (datum : TypeSymbol) : Policy × Nat :=
  let typeScope := (declareScope p.typeScope key).1
  match hashtabInsert typesSize p.pTypes.table key datum with
  | none => ({ p with typeScope }, 0)
  | some table =>
      ({ p with typeScope, pTypes := { table, nprim := p.pTypes.nprim + 1 } },
        p.pTypes.nprim + 1)

/-- `realloc` to `count` rows and `ebitmap_init` of row `row`. -/
def growRows (rows : List Ebitmap) (count row : Nat) : List Ebitmap :=
  (rows.take count ++ List.replicate (count - rows.length) Ebitmap.empty).set row Ebitmap.empty

/-- `create_domain` up to the rebuild of the index arrays. -/
def declareType (p : Policy) (d : CString) : Policy × Nat :=
  let (p, value) := symtabInsert p d { value := 0, primary := true, flavor := .type }
  let table := p.pTypes.table.modify d fun type => { type with value }
  let typeAttrMap := growRows p.typeAttrMap p.pTypes.nprim (value - 1)
  ({ p with
      pTypes := { p.pTypes with table }
      declaredTypes := ebitmapSetBit p.declaredTypes (value - 1) true
      typeAttrMap := setRowBit typeAttrMap (value - 1) (value - 1)
      attrTypeMap := growRows p.attrTypeMap p.pTypes.nprim (value - 1) }, value)

/-- The rebuild stops at the first error. -/
def reindex (p : Policy) : Policy × Bool :=
  let (p, classesIndexed) := policydbIndexClasses p
  if classesIndexed = false then (p, false) else policydbIndexOthers p

def addRoleType (bit : Nat) (role : RoleDatum) : RoleDatum :=
  { role with
    negset := ebitmapSetBit role.negset bit false
    types := ebitmapSetBit role.types bit true }

def addToRoles (p : Policy) (bit : Nat) : Option Policy := do
  let table ← modifyPointed p.roleValToStruct p.pRoles.nprim (addRoleType bit) p.pRoles.table
  return { p with pRoles := { p.pRoles with table } }

def createDomain (p : Policy) (d : Option CString) : Outcome := do
  let d ← d
  match hashtabSearch p.pTypes.table d with
  | some _ => return (p, 0)
  | none =>
      let (p, value) := declareType p d
      match hashtabSearch p.pTypes.table d with
      | none => return (p, 1)
      | some _ =>
          let (p, indexed) := reindex p
          if indexed = false then return (p, 1)
          else
            let p ← addToRoles p (value - 1)
            return setAttr p (ascii "domain") value

/-! ## Domain states -/

/-- The map is indexed by the value itself. Values from `2 ^ 32 - 64` on, which
`ebitmap_set_bit` refuses, are not modelled. -/
def setDomainState (p : Policy) (s : Option CString) (state : Bool) : Policy × Nat :=
  match s with
  | none =>
      ({ p with
          permissiveMap := p.pTypes.table.data.foldl (fun e type =>
            ebitmapSetBit e type.value state) p.permissiveMap }, 0)
  | some s =>
      match findSymbol p.pTypes.table .type s with
      | .error _ => (p, 1)
      | .ok type =>
          ({ p with permissiveMap := ebitmapSetBit p.permissiveMap type.value state }, 0)

/-! ## Type transitions -/

structure TransitionSymbols where
  src : TypeSymbol
  tgt : TypeSymbol
  cls : ClassSymbol
  default : TypeSymbol

def transitionSymbols (p : Policy) (s t c d : CString) :
    Except SymbolError TransitionSymbols := do
  let src ← findSymbol p.pTypes.table .sourceType s
  let tgt ← findSymbol p.pTypes.table .targetType t
  let cls ← findSymbol p.pClasses.table .cls c
  let default ← findSymbol p.pTypes.table .defaultType d
  return { src, tgt, cls, default }

def addTransition (p : Policy) (s t c d : CString) : Policy × Nat :=
  match transitionSymbols p s t c d with
  | .error _ => (p, 1)
  | .ok symbols =>
      let key := ruleKey symbols.src.value symbols.tgt.value symbols.cls.value .transition
      onRules (fun db => upsertRule db key { data := 0 } fun av =>
        { av with data := BitVec.ofNat 32 symbols.default.value }) p

def wordBytes (value : Nat) : List Byte :=
  [UInt8.ofNat value, UInt8.ofNat (value >>> 8), UInt8.ofNat (value >>> 16),
    UInt8.ofNat (value >>> 24)]

/-- The key structure read as a string. Values of types are below `2 ^ 24`, so
the string ends before the pointer to the name. -/
def transKeyString (key : FilenameTrans) : CString :=
  (wordBytes key.stype ++ wordBytes key.ttype ++ wordBytes key.tclass).takeWhile (· ≠ 0)

/-- The key is looked up among the types, as if it were a name. A type that is
found there has its value, the first word of the datum, overwritten. Otherwise
a new datum is inserted, which the table refuses for a key that it has. The table
keeps the address of the local variable `trans_key`. -/
def addFileTransition (p : Policy) (s t c d filename : CString) : Outcome :=
  match transitionSymbols p s t c d with
  | .error _ => some (p, 1)
  | .ok symbols =>
      let key : FilenameTrans :=
        { stype := symbols.src.value
          ttype := symbols.tgt.value
          tclass := symbols.cls.value
          name := filename }
      match hashtabSearch p.pTypes.table (transKeyString key) with
      | some _ =>
          let table := p.pTypes.table.modify (transKeyString key) fun type =>
            { type with value := symbols.default.value }
          some ({ p with pTypes := { p.pTypes with table } }, 0)
      | none =>
          (p.filenameTrans.insert key .dead symbols.default.value).map fun inserted =>
            ({ p with filenameTrans := inserted.getD p.filenameTrans }, 0)

/-! ## Extended permissions -/

def hexDigit (byte : Byte) : Option Nat :=
  if isDigit byte then some (byte.toNat - 48)
  else if 97 ≤ byte && byte ≤ 102 then some (byte.toNat - 87)
  else if 65 ≤ byte && byte ≤ 70 then some (byte.toNat - 55)
  else none

/-- The conversion `%hx`: the value and the text after it. -/
def scanHx (text : CString) : Option (UInt16 × CString) :=
  let afterSpace := text.dropWhile isSpace
  let negative := afterSpace.head? == some 45
  let unsigned :=
    if negative || afterSpace.head? == some 43 then afterSpace.drop 1 else afterSpace
  let body :=
    if unsigned.take 2 = ascii "0x" ∨ unsigned.take 2 = ascii "0X" then unsigned.drop 2
    else unsigned
  let digits := body.takeWhile fun byte => (hexDigit byte).isSome
  let magnitude := digits.foldl (fun value digit => 16 * value + (hexDigit digit).getD 0) 0
  if digits = [] then none
  else
    some (if negative then 0 - UInt16.ofNat magnitude else UInt16.ofNat magnitude,
      body.drop digits.length)

/-- What the variables `low` and `high` hold after the scan; `stale` is what
they hold before it. -/
def scanRange (stale : UInt16 × UInt16) : Option CString → UInt16 × UInt16
  | none => (0, 0xFFFF)
  | some range =>
      if 45 ∈ range then
        match scanHx range with
        | none => stale
        | some (low, 45 :: rest) => (low, ((scanHx rest).map Prod.fst).getD stale.2)
        | some (low, _) => (low, stale.2)
      else
        let low := ((scanHx range).map Prod.fst).getD stale.1
        (low, low)

structure XpermSymbols where
  src : Option TypeDatum
  tgt : Option TypeDatum
  cls : Option ClassDatum

def xpermSymbols (db : Policydb) (s t c : Option CString) : Except RuleError XpermSymbols := do
  let src ← lookupName db.pTypes .sourceType s
  let tgt ← lookupName db.pTypes .targetType t
  let cls ← lookupName db.pClasses .cls c
  return { src, tgt, cls }

def addXpermRule (stale : UInt16 × UInt16) (s t c range : Option CString)
    (effect : AvtabSpecified) (not : Bool) (db : Policydb) : Policydb × Nat :=
  match xpermSymbols db s t c with
  | .error _ => (db, 1)
  | .ok symbols =>
      let (low, high) := scanRange stale range
      addXpermRuleAuto symbols.src symbols.tgt symbols.cls low high effect not db

/-! ## The operations of `api.c` -/

/-- The kind of rule a rule statement edits, and whether it takes away. -/
def RuleAction.effect : RuleAction → AvtabSpecified × Bool
  | .allow => (.allowed, false)
  | .deny => (.allowed, true)
  | .auditallow => (.auditallow, false)
  | .auditdeny => (.auditdeny, false)

def XpermAction.effect : XpermAction → AvtabSpecified
  | .allowxperm => .xpermsAllowed
  | .auditallowxperm => .xpermsAuditallow
  | .dontauditxperm => .xpermsDontaudit

def sepolExists (p : Policy) (source : CString) : Bool :=
  (hashtabSearch p.pTypes.table source).isSome

def sepolTypetrans (p : Policy) (s t c d : CString) (o : Option CString) : Outcome :=
  match o with
  | none => some (addTransition p s t c d)
  | some o => addFileTransition p s t c d o

/-- A call, and what the uninitialised variables of `add_xperm_rule` hold when
it is made. -/
structure Invocation where
  call : PolicyCall
  stale : UInt16 × UInt16
deriving DecidableEq

def execute (invocation : Invocation) (p : Policy) : Outcome :=
  match invocation.call with
  | .rule action s t c perm =>
      some (onRules (fun db => addRule db s t c perm action.effect.1 action.effect.2) p)
  | .xperm action s t c range =>
      some (onRules (addXpermRule invocation.stale s t c range action.effect false) p)
  | .attradd s a => addTypeattribute p s a
  | .typeState .create s => createDomain p s
  | .typeState .permissive s => some (setDomainState p s true)
  | .typeState .enforce s => some (setDomainState p s false)
  | .typetrans s t c d o => sepolTypetrans p s t c d o

/-- A call whose return value is not looked at. -/
def perform (invocation : Invocation) (p : Policy) : Option Policy :=
  (execute invocation p).map Prod.fst

def runCalls (invocations : List Invocation) (p : Policy) : Option Policy :=
  runSteps perform invocations p

end SuBinary.Magiskpolicy
