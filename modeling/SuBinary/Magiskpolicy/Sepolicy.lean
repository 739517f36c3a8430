import SuBinary.Sepol.Policydb

/-! # Rules of the policy

The functions of `sepolicy.c` that add access vector and extended-permission
rules, and the statements of `api.c` built on them.
-/

namespace SuBinary.Magiskpolicy

open SuBinary Sepol

/-! ## One key -/

/-- The edit of an access vector; a negative `p` stands for all
permissions. -/
def editVector (p : Int) (not : Bool) (data : BitVec 32) : BitVec 32 :=
  if not then
    if p < 0 then 0 else data &&& ~~~((1 : BitVec 32) <<< (p - 1).toNat)
  else
    if p < 0 then BitVec.allOnes 32 else data ||| ((1 : BitVec 32) <<< (p - 1).toNat)

def editDatum (p : Int) (not : Bool) (av : AvtabDatum) : AvtabDatum :=
  { av with data := editVector p not av.data }

/-- The avtab key of three symbol values; each is cut to 16 bits. -/
def ruleKey (s t c : Nat) (effect : AvtabSpecified) : AvtabKey where
  sourceType := UInt16.ofNat s
  targetType := UInt16.ofNat t
  targetClass := UInt16.ofNat c
  specified := effect

set_option linter.style.nameCheck false in
/-- The integer result is the source's return value. -/
def __addRule (db : Policydb) (s t c : Nat) (p : Int) (effect : AvtabSpecified)
    (not : Bool) : Policydb × Nat :=
  let key := ruleKey s t c effect
  match avtabSearch db.teAvtab key with
  | none =>
      match avtabInsert db.teAvtab key (editDatum p not { data := 0 }) with
      | none => (db, 1)
      | some teAvtab => ({ db with teAvtab }, 0)
  | some _ => ({ db with teAvtab := avtabModify db.teAvtab key (editDatum p not) }, 0)

/-! ## Extended permissions -/

def ioctlDriver (x : UInt16) : Nat := x.toNat >>> 8 &&& 0xFF

def ioctlFunc (x : UInt16) : Nat := x.toNat &&& 0xFF

def xpermSet (x : Nat) (perms : BitVec 256) : BitVec 256 :=
  perms ||| ((1 : BitVec 256) <<< x)

def xpermClear (x : Nat) (perms : BitVec 256) : BitVec 256 :=
  perms &&& ~~~((1 : BitVec 256) <<< x)

def editXpermBits (first last : Nat) (not : Bool) (perms : BitVec 256) : BitVec 256 :=
  (List.range' first (last + 1 - first)).foldl (fun perms i =>
    if not then xpermClear i perms else xpermSet i perms) perms

/-- The node made for a key that has none: a range inside one driver is stored
by function, a longer one by driver. -/
def newXperms (low high : UInt16) : ExtendedPerms :=
  if ioctlDriver low ≠ ioctlDriver high then
    { specified := xpermsIoctldriver, driver := 0, perms := 0 }
  else
    { specified := xpermsIoctlfunction
      driver := UInt8.ofNat (ioctlDriver low)
      perms := 0 }

/-- The edit goes by the kind of the node that is there, whatever the range. -/
def editXperms (low high : UInt16) (not : Bool) (xperms : ExtendedPerms) : ExtendedPerms :=
  if xperms.specified = xpermsIoctldriver then
    { xperms with
      perms := editXpermBits (ioctlDriver low) (ioctlDriver high) not xperms.perms }
  else
    { xperms with
      perms := editXpermBits (ioctlFunc low) (ioctlFunc high) not xperms.perms }

def editXpermDatum (low high : UInt16) (not : Bool) (av : AvtabDatum) : AvtabDatum :=
  { av with xperms := editXperms low high not av.xperms }

set_option linter.style.nameCheck false in
def __addXpermRule (db : Policydb) (s t c : Nat) (low high : UInt16)
    (effect : AvtabSpecified) (not : Bool) : Policydb × Nat :=
  let key := ruleKey s t c effect
  match avtabSearch db.teAvtab key with
  | none =>
      match avtabInsert db.teAvtab key
          (editXpermDatum low high not { data := 0, xperms := newXperms low high }) with
      | none => (db, 1)
      | some teAvtab => ({ db with teAvtab }, 0)
  | some _ =>
      ({ db with teAvtab := avtabModify db.teAvtab key (editXpermDatum low high not) }, 0)

/-! ## Wildcards -/

/-- A `hashtab_for_each` loop whose body returns a status that is or-ed into
the result. -/
def hashtabForEach (table : Hashtab Datum) (body : Policydb → Datum → Policydb × Nat)
    (db : Policydb) : Policydb × Nat :=
  table.data.foldl (fun state datum =>
    let next := body state.1 datum
    (next.1, state.2 ||| next.2)) (db, 0)

section Auto

variable (wild named : Policydb → Nat → Nat → Nat → Policydb × Nat)

/-- The wildcard loops of `add_rule_auto` and `add_xperm_rule_auto` once a
source and a target are known: `wild` is called for a class of the table,
`named` for a class of the statement. -/
def ruleAutoClass (cls : Option ClassDatum) (db : Policydb) (src tgt : TypeDatum) :
    Policydb × Nat :=
  match cls with
  | none =>
      hashtabForEach db.pClasses (fun db cls => wild db src.value tgt.value cls.value) db
  | some cls => named db src.value tgt.value cls.value

def ruleAutoTarget (tgt : Option TypeDatum) (cls : Option ClassDatum) (db : Policydb)
    (src : TypeDatum) : Policydb × Nat :=
  match tgt with
  | none =>
      hashtabForEach db.pTypes (fun db tgt => ruleAutoClass wild named cls db src tgt) db
  | some tgt => ruleAutoClass wild named cls db src tgt

/-- The source functions call themselves once per wildcard they have replaced
by an entry of the table; the recursion is unrolled here, one definition for
each level. -/
def ruleAuto (src tgt : Option TypeDatum) (cls : Option ClassDatum) (db : Policydb) :
    Policydb × Nat :=
  match src with
  | none => hashtabForEach db.pTypes (ruleAutoTarget wild named tgt cls) db
  | some src => ruleAutoTarget wild named tgt cls db src

end Auto

def addRuleAuto (src tgt : Option TypeDatum) (cls : Option ClassDatum)
    (perm : Option PermDatum) (effect : AvtabSpecified) (not : Bool) (db : Policydb) :
    Policydb × Nat :=
  ruleAuto (fun db s t c => __addRule db s t c (-1) effect not)
    (fun db s t c =>
      __addRule db s t c
        (match perm with
          | some perm => perm.value
          | none => -1) effect not) src tgt cls db

def addXpermRuleAuto (src tgt : Option TypeDatum) (cls : Option ClassDatum)
    (low high : UInt16) (effect : AvtabSpecified) (not : Bool) (db : Policydb) :
    Policydb × Nat :=
  ruleAuto (fun db s t c => __addXpermRule db s t c low high effect not)
    (fun db s t c => __addXpermRule db s t c low high effect not) src tgt cls db

/-! ## Names -/

inductive RuleError
  | sourceType (name : CString)
  | targetType (name : CString)
  | cls (name : CString)
  | noClass (name : CString)
  | perm (name className : CString)
deriving DecidableEq

def RuleError.message : RuleError → CString
  | .sourceType name => ascii "source type " ++ name ++ ascii " does not exist\n"
  | .targetType name => ascii "target type " ++ name ++ ascii " does not exist\n"
  | .cls name => ascii "class " ++ name ++ ascii " does not exist\n"
  | .noClass name =>
      ascii "No class is specified, cannot add perm [" ++ name ++ ascii "] \n"
  | .perm name className =>
      ascii "perm " ++ name ++ ascii " does not exist in class " ++ className ++
        ascii "\n"

/-- Look a name up; `ALL`, the null pointer, stays unresolved. -/
def lookupName (table : Hashtab Datum) (missing : CString → RuleError) :
    Option CString → Except RuleError (Option Datum)
  | none => .ok none
  | some name =>
      match hashtabSearch table name with
      | none => .error (missing name)
      | some datum => .ok (some datum)

/-- A permission is looked up in its class and then in the class's common. -/
def classPerm (cls : ClassDatum) (p : CString) : Option PermDatum :=
  match hashtabSearch cls.permissions p with
  | some perm => some perm
  | none => cls.comdatum.bind fun common => hashtabSearch common.permissions p

def lookupPerm (c : Option CString) (cls : Option ClassDatum) :
    Option CString → Except RuleError (Option PermDatum)
  | none => .ok none
  | some p =>
      match c, cls with
      | none, _ => .error (.noClass p)
      | some _, none => .ok none
      | some c, some cls =>
          match classPerm cls p with
          | none => .error (.perm p c)
          | some perm => .ok (some perm)

structure RuleSymbols where
  src : Option TypeDatum
  tgt : Option TypeDatum
  cls : Option ClassDatum
  perm : Option PermDatum

def ruleSymbols (db : Policydb) (s t c p : Option CString) :
    Except RuleError RuleSymbols := do
  let src ← lookupName db.pTypes .sourceType s
  let tgt ← lookupName db.pTypes .targetType t
  let cls ← lookupName db.pClasses .cls c
  let perm ← lookupPerm c cls p
  return { src, tgt, cls, perm }

def addRule (db : Policydb) (s t c p : Option CString) (effect : AvtabSpecified)
    (not : Bool) : Policydb × Nat :=
  match ruleSymbols db s t c p with
  | .error _ => (db, 1)
  | .ok symbols =>
      addRuleAuto symbols.src symbols.tgt symbols.cls symbols.perm effect not db

/-! ## Statements -/

def sepolAllow (db : Policydb) (s t c p : Option CString) : Policydb × Nat :=
  addRule db s t c p .allowed false

def sepolDeny (db : Policydb) (s t c p : Option CString) : Policydb × Nat :=
  addRule db s t c p .allowed true

def sepolAuditallow (db : Policydb) (s t c p : Option CString) : Policydb × Nat :=
  addRule db s t c p .auditallow false

def sepolAuditdeny (db : Policydb) (s t c p : Option CString) : Policydb × Nat :=
  addRule db s t c p .auditdeny false

end SuBinary.Magiskpolicy
