import SuBinary.Foundation.ChainTableFill
import SuBinary.Sepol.Avtab
import SuBinary.Sepol.PolicyFile

/-! # The access vector table in policy files

The format of policy versions from `POLICYDB_VERSION_AVTAB` on. Extended permissions have
two formats, because those of version 30 were changed after some policies of that version had
been released. The global variable `avtab_android_m_compat` says which one is in use; the functions
take it as an argument, and what they read may set it.
-/

namespace SuBinary.Sepol

open SuBinary Decoder ChainTable

/-- `POLICYDB_VERSION_AVTAB` -/
def versionAvtab : Nat := 20

/-- `POLICYDB_VERSION_XPERMS_IOCTL` -/
def versionIoctl : Nat := 30

/-! ## Kinds of rules as masks -/

def AvtabSpecified.mask : AvtabSpecified → Nat
  | .allowed => 0x0001
  | .auditallow => 0x0002
  | .auditdeny => 0x0004
  | .transition => 0x0010
  | .member => 0x0020
  | .change => 0x0040
  | .xpermsAllowed => 0x0100
  | .xpermsAuditallow => 0x0200
  | .xpermsDontaudit => 0x0400

def specOrder : List AvtabSpecified :=
  [.allowed, .auditdeny, .auditallow, .transition, .change, .member, .xpermsAllowed,
    .xpermsAuditallow, .xpermsDontaudit]

def kindsIn (specified : Nat) : List AvtabSpecified :=
  specOrder.filter fun kind => specified &&& kind.mask ≠ 0

/-- `AVTAB_OPTYPE` -/
def optypeMask : Nat := 0x7000

/-- `AVTAB_XPERMS_OPTYPE`, the distance of the two masks of an extended kind. -/
def optypeShift : Nat := 4

/-! ## Writing -/

inductive TargetPlatform
  | selinux
  | xen
deriving DecidableEq

structure AvtabFormat where
  policyvers : Nat
  targetPlatform : TargetPlatform
  androidMCompat : Bool
  supported : versionAvtab ≤ policyvers := by decide

abbrev AvtabNode := Node AvtabTriple AvtabSpecified AvtabDatum

/-- The compatible format has another mask for the nodes that list drivers. -/
def specifiedMask (androidMCompat : Bool) (cur : AvtabNode) : Nat :=
  if androidMCompat ∧ cur.tag.isXperms ∧ cur.datum.xperms.specified = xpermsIoctldriver then
    cur.tag.mask <<< optypeShift
  else cur.tag.mask

def writeAvtabKey (key : AvtabTriple) (specified : Nat) : List Byte :=
  leBytes 2 key.sourceType.toNat ++ (leBytes 2 key.targetType.toNat ++
    (leBytes 2 key.targetClass.toNat ++ leBytes 2 specified))

/-- The eight words of the permissions are one number of 32 bytes. -/
def writeXperms (androidMCompat : Bool) (xperms : ExtendedPerms) : List Byte :=
  (if androidMCompat then [] else leBytes 1 xperms.specified.toNat) ++
    (leBytes 1 xperms.driver.toNat ++ leBytes 32 xperms.perms.toNat)

def writeAvtabDatum (androidMCompat : Bool) (cur : AvtabNode) : List Byte :=
  if cur.tag.isXperms then writeXperms androidMCompat cur.datum.xperms
  else leBytes 4 cur.datum.data.toNat

def avtabItem (androidMCompat : Bool) (cur : AvtabNode) : List Byte :=
  writeAvtabKey cur.key (specifiedMask androidMCompat cur) ++ writeAvtabDatum androidMCompat cur

/-- `none` is `POLICYDB_ERROR`. -/
def avtabWriteItem (p : AvtabFormat) (cur : AvtabNode) : Option (List Byte) :=
  if p.policyvers < versionIoctl ∧ cur.tag.isXperms then none
  else if p.targetPlatform ≠ .selinux ∧ cur.tag.isXperms then none
  else some (avtabItem p.androidMCompat cur)

def writeAvtabItems (p : AvtabFormat) : List AvtabNode → Option (List Byte)
  | [] => some []
  | cur :: rest => do
      let item ← avtabWriteItem p cur
      let items ← writeAvtabItems p rest
      return item ++ items

/-- The nodes in the order of the slots; there is one slot for each value of the hash. -/
def Avtab.nodes (a : Avtab) : List AvtabNode := a.table.nodes (a.mask.toNat + 1)

/-- The field `nel` counts the nodes. -/
def avtabWrite (p : AvtabFormat) (a : Avtab) : Option (List Byte) := do
  let items ← writeAvtabItems p a.nodes
  return leBytes 4 a.nodes.length ++ items

/-! ## Reading -/

/-- An item as it is read; `others` are the bits of its mask that specify no kind. -/
structure AvtabItem where
  node : AvtabNode
  others : Nat

/-- A byte that is no kind of extended permissions is taken for a driver, which stands at that
place in the compatible format. -/
def readXperms (vers : Nat) (androidMCompat optype : Bool) :
    PolicyReader (ExtendedPerms × Bool) := do
  let specified ← nextNumber 1
  if androidMCompat ∨ (specified ≠ xpermsIoctlfunction.toNat ∧
      specified ≠ xpermsIoctldriver.toNat ∧ vers = versionIoctl) then do
    let perms ← nextNumber 32
    let xperms : ExtendedPerms :=
      { specified := if optype then xpermsIoctldriver else xpermsIoctlfunction
        driver := UInt8.ofNat specified
        perms := BitVec.ofNat 256 perms }
    return (xperms, true)
  else do
    let driver ← nextNumber 1
    let perms ← nextNumber 32
    let xperms : ExtendedPerms :=
      { specified := UInt8.ofNat specified
        driver := UInt8.ofNat driver
        perms := BitVec.ofNat 256 perms }
    return (xperms, androidMCompat)

def readAvtabDatum (vers : Nat) (androidMCompat optype : Bool) (kind : AvtabSpecified) :
    PolicyReader (AvtabDatum × Bool) :=
  if vers < versionIoctl ∧ kind.isXperms then throw (-1)
  else if kind.isXperms then do
    let (xperms, androidMCompat) ← readXperms vers androidMCompat optype
    return ({ data := 0, xperms }, androidMCompat)
  else do
    let data ← nextNumber 4
    return ({ data := BitVec.ofNat 32 data }, androidMCompat)

/-- What is behind the key, with its mask in the format that is not compatible. -/
def readAvtabKinds (vers : Nat) (androidMCompat optype : Bool) (key : AvtabTriple)
    (specified : Nat) : PolicyReader (AvtabItem × Bool) :=
  match kindsIn specified with
  | [kind] => do
      let (datum, androidMCompat) ← readAvtabDatum vers androidMCompat optype kind
      return ({ node := ⟨key, kind, datum⟩, others := specified - kind.mask }, androidMCompat)
  | _ => throw (-1)

def avtabReadItem (vers : Nat) (androidMCompat : Bool) : PolicyReader (AvtabItem × Bool) := do
  let sourceType ← nextNumber 2
  let targetType ← nextNumber 2
  let targetClass ← nextNumber 2
  let specified ← nextNumber 2
  let key : AvtabTriple :=
    { sourceType := UInt16.ofNat sourceType
      targetType := UInt16.ofNat targetType
      targetClass := UInt16.ofNat targetClass }
  if specified &&& optypeMask ≠ 0 ∧ vers = versionIoctl then
    readAvtabKinds vers true true key (specified >>> optypeShift)
  else readAvtabKinds vers androidMCompat false key specified

/-- The number of shifts after which nothing is left; numbers of 32 bits need no more than 32. -/
def shiftsOf : (bound work : Nat) → Nat
  | 0, _ => 0
  | bound + 1, work => if work = 0 then 0 else shiftsOf bound (work / 2) + 1

def maxAvtabHashBuckets : Nat := 2 ^ 20

def avtabAllocSlots (nrules : Nat) : Nat :=
  let shift := shiftsOf 32 nrules
  let shift := if shift > 2 then shift - 2 else shift
  min (2 ^ shift) maxAvtabHashBuckets

/-- A table without nodes for `nrules` rules, of which there is at least one. -/
def avtabAlloc (nrules : Nat) : Avtab :=
  Avtab.empty (UInt32.ofNat (avtabAllocSlots nrules - 1))

/-- `none` is a table with a mask of further bits, which the model has no words for; nothing is
said about the rest of such a file. -/
def readAvtabItems (vers : Nat) :
    (left : Nat) → Bool → Avtab → PolicyReader (Option (Avtab × Bool))
  | 0, androidMCompat, a => return some (a, androidMCompat)
  | left + 1, androidMCompat, a => do
      let (item, androidMCompat) ← avtabReadItem vers androidMCompat
      if item.others ≠ 0 then return none
      else
        match avtabInsert a ⟨item.node.key, item.node.tag⟩ item.node.datum with
        | none => throw (-1)
        | some a => readAvtabItems vers left androidMCompat a

/-- Nothing is said about files of older versions either. -/
def avtabRead (vers : Nat) (androidMCompat : Bool) :
    PolicyReader (Option (Avtab × Bool)) :=
  if vers < versionAvtab then return none
  else do
    let nel ← nextNumber 4
    if nel = 0 then throw (-1)
    else readAvtabItems vers nel androidMCompat (avtabAlloc nel)

/-! ## Reading what was written -/

/-- What a file keeps of the datum of a kind. -/
def keptDatum (kind : AvtabSpecified) (datum : AvtabDatum) : AvtabDatum :=
  if kind.isXperms then { data := 0, xperms := datum.xperms } else { data := datum.data }

def keptNode (cur : AvtabNode) : AvtabNode := { cur with datum := keptDatum cur.tag cur.datum }

/-- The format has a text for the node from which it can be told. -/
def Readable (vers : Nat) (androidMCompat : Bool) (cur : AvtabNode) : Prop :=
  cur.tag.isXperms = true → versionIoctl ≤ vers ∧
    if androidMCompat then
      cur.datum.xperms.specified = xpermsIoctlfunction ∨
        cur.datum.xperms.specified = xpermsIoctldriver ∧ vers = versionIoctl
    else
      vers ≠ versionIoctl ∨ cur.datum.xperms.specified = xpermsIoctlfunction ∨
        cur.datum.xperms.specified = xpermsIoctldriver

/-- A node whose text in the compatible format is not one of the other format. -/
def Announces (cur : AvtabNode) : Prop :=
  cur.datum.xperms.specified = xpermsIoctldriver ∨
    cur.datum.xperms.driver ≠ xpermsIoctlfunction ∧ cur.datum.xperms.driver ≠ xpermsIoctldriver

instance (cur : AvtabNode) : Decidable (Announces cur) := inferInstanceAs (Decidable (_ ∨ _))

theorem kindsIn_mask (kind : AvtabSpecified) : kindsIn kind.mask = [kind] := by
  cases kind <;> decide

theorem mask_lt (kind : AvtabSpecified) : kind.mask <<< optypeShift < 2 ^ 16 := by
  cases kind <;> decide

theorem mask_le_shifted (kind : AvtabSpecified) : kind.mask ≤ kind.mask <<< optypeShift := by
  rw [Nat.shiftLeft_eq]
  exact Nat.le_mul_of_pos_right _ (by decide)

theorem mask_and_optype (kind : AvtabSpecified) : kind.mask &&& optypeMask = 0 := by
  cases kind <;> decide

theorem shifted_and_optype {kind : AvtabSpecified} (extended : kind.isXperms = true) :
    kind.mask <<< optypeShift &&& optypeMask ≠ 0 := by
  cases kind <;> first | decide | cases extended

theorem decodes_byte (byte : UInt8) : Decodes id (nextNumber 1) (leBytes 1 byte.toNat) byte.toNat :=
  decodes_nextNumber byte.toNat_lt

theorem decodes_perms (xperms : ExtendedPerms) :
    Decodes id (nextNumber 32) (leBytes 32 xperms.perms.toNat) xperms.perms.toNat :=
  decodes_nextNumber xperms.perms.isLt

section Items

variable {vers : Nat} {androidMCompat : Bool}

theorem decodes_readXperms_compat (xperms : ExtendedPerms) (optype : Bool)
    (told : androidMCompat = true ∨ (xperms.driver ≠ xpermsIoctlfunction ∧
      xperms.driver ≠ xpermsIoctldriver ∧ vers = versionIoctl)) :
    Decodes id (readXperms vers androidMCompat optype) (writeXperms true xperms)
      ({ xperms with specified := if optype then xpermsIoctldriver else xpermsIoctlfunction },
        true) := by
  have compatible : androidMCompat = true ∨
      (xperms.driver.toNat ≠ xpermsIoctlfunction.toNat ∧
        xperms.driver.toNat ≠ xpermsIoctldriver.toNat ∧ vers = versionIoctl) := by
    simpa only [ne_eq, UInt8.toNat_inj] using told
  rw [writeXperms, if_pos rfl, List.nil_append, readXperms]
  refine (decodes_byte _).bind ?_
  rw [if_pos compatible, ← List.append_nil (leBytes 32 _)]
  refine (decodes_perms xperms).bind ?_
  rw [UInt8.ofNat_toNat, BitVec.ofNat_toNat, BitVec.setWidth_eq]
  exact Decodes.pure _

theorem decodes_readXperms (xperms : ExtendedPerms) (optype : Bool)
    (told : vers ≠ versionIoctl ∨ xperms.specified = xpermsIoctlfunction ∨
      xperms.specified = xpermsIoctldriver) :
    Decodes id (readXperms vers false optype) (writeXperms false xperms) (xperms, false) := by
  have notCompatible : ¬(false = true ∨
      (xperms.specified.toNat ≠ xpermsIoctlfunction.toNat ∧
        xperms.specified.toNat ≠ xpermsIoctldriver.toNat ∧ vers = versionIoctl)) := by
    simp only [ne_eq, UInt8.toNat_inj]
    tauto
  rw [writeXperms, if_neg Bool.false_ne_true, readXperms]
  refine (decodes_byte _).bind ?_
  rw [if_neg notCompatible, ← List.append_nil (leBytes 32 _)]
  refine (decodes_byte _).bind ((decodes_perms xperms).bind ?_)
  rw [UInt8.ofNat_toNat, UInt8.ofNat_toNat, BitVec.ofNat_toNat, BitVec.setWidth_eq]
  exact Decodes.pure _

theorem decodes_avtabReadItem_of_kinds {key : AvtabTriple} {specified : Nat} {items : List Byte}
    {result : AvtabItem × Bool} (fits : specified < 2 ^ 16)
    (decodes : Decodes id
      (if specified &&& optypeMask ≠ 0 ∧ vers = versionIoctl then
        readAvtabKinds vers true true key (specified >>> optypeShift)
      else readAvtabKinds vers androidMCompat false key specified) items result) :
    Decodes id (avtabReadItem vers androidMCompat) (writeAvtabKey key specified ++ items)
      result := by
  rw [writeAvtabKey, List.append_assoc, List.append_assoc, List.append_assoc, avtabReadItem]
  refine (decodes_nextNumber key.sourceType.toNat_lt).bind ?_
  refine (decodes_nextNumber key.targetType.toNat_lt).bind ?_
  refine (decodes_nextNumber key.targetClass.toNat_lt).bind ?_
  refine (decodes_nextNumber fits).bind ?_
  simpa only [UInt16.ofNat_toNat] using decodes

theorem decodes_readAvtabKinds {optype : Bool} {key : AvtabTriple} {kind : AvtabSpecified}
    {items : List Byte} {datum : AvtabDatum} {compatAfter : Bool}
    (decodes : Decodes id (readAvtabDatum vers androidMCompat optype kind) items
      (datum, compatAfter)) :
    Decodes id (readAvtabKinds vers androidMCompat optype key kind.mask) items
      ({ node := ⟨key, kind, datum⟩, others := 0 }, compatAfter) := by
  rw [readAvtabKinds, kindsIn_mask, ← List.append_nil items]
  refine decodes.bind ?_
  rw [Nat.sub_self]
  exact Decodes.pure _

theorem decodes_readAvtabDatum_plain {cur : AvtabNode} (plain : cur.tag.isXperms = false)
    (optype written : Bool) :
    Decodes id (readAvtabDatum vers androidMCompat optype cur.tag) (writeAvtabDatum written cur)
      (keptDatum cur.tag cur.datum, androidMCompat) := by
  have notExtended : ¬cur.tag.isXperms = true := by rw [plain]; exact Bool.false_ne_true
  rw [readAvtabDatum, writeAvtabDatum, keptDatum, if_neg fun both => notExtended both.2,
    if_neg notExtended, if_neg notExtended, if_neg notExtended, ← List.append_nil (leBytes _ _)]
  refine (decodes_nextNumber cur.datum.data.isLt).bind ?_
  rw [BitVec.ofNat_toNat, BitVec.setWidth_eq]
  exact Decodes.pure _

theorem decodes_readAvtabDatum_extended {cur : AvtabNode} (extended : cur.tag.isXperms = true)
    (hasXperms : versionIoctl ≤ vers) {optype written compatAfter : Bool}
    (decodes : Decodes id (readXperms vers androidMCompat optype)
      (writeXperms written cur.datum.xperms) (cur.datum.xperms, compatAfter)) :
    Decodes id (readAvtabDatum vers androidMCompat optype cur.tag) (writeAvtabDatum written cur)
      (keptDatum cur.tag cur.datum, compatAfter) := by
  rw [readAvtabDatum, writeAvtabDatum, keptDatum, if_neg (by omega), if_pos extended,
    if_pos extended, if_pos extended, ← List.append_nil (writeXperms _ _)]
  exact decodes.bind (Decodes.pure _)

/-- Both ends agree on the format, or the node tells the reader which one it is. -/
def Told (vers : Nat) (written androidMCompat : Bool) (cur : AvtabNode) : Prop :=
  written = androidMCompat ∨ written = true ∧ vers = versionIoctl ∧ Announces cur

theorem decodes_avtabReadItem {written : Bool} {cur : AvtabNode}
    (readable : Readable vers written cur)
    (told : cur.tag.isXperms = true → Told vers written androidMCompat cur) :
    Decodes id (avtabReadItem vers androidMCompat) (avtabItem written cur)
      ({ node := keptNode cur, others := 0 },
        if cur.tag.isXperms then written else androidMCompat) := by
  have unshifted : ¬(cur.tag.mask &&& optypeMask ≠ 0 ∧ vers = versionIoctl) := by
    simp [mask_and_optype]
  have fits : cur.tag.mask < 2 ^ 16 := (mask_le_shifted _).trans_lt (mask_lt _)
  rw [avtabItem]
  cases extended : cur.tag.isXperms with
  | false =>
      have isMask : specifiedMask written cur = cur.tag.mask := by simp [specifiedMask, extended]
      rw [isMask]
      apply decodes_avtabReadItem_of_kinds fits
      rw [if_neg unshifted]
      exact decodes_readAvtabKinds (decodes_readAvtabDatum_plain extended false written)
  | true =>
      rcases readable extended with ⟨hasXperms, specifies⟩
      by_cases drivers : written = true ∧ cur.datum.xperms.specified = xpermsIoctldriver
      · rcases drivers with ⟨rfl, isDriver⟩
        have version : vers = versionIoctl := by
          simpa [isDriver, xpermsIoctldriver, xpermsIoctlfunction] using specifies
        have isMask : specifiedMask true cur = cur.tag.mask <<< optypeShift := by
          simp [specifiedMask, extended, isDriver]
        rw [isMask]
        apply decodes_avtabReadItem_of_kinds (mask_lt _)
        rw [if_pos ⟨shifted_and_optype extended, version⟩, Nat.shiftLeft_shiftRight]
        have decodes := @decodes_readXperms_compat vers true cur.datum.xperms true (Or.inl rfl)
        rw [if_pos rfl, ← isDriver] at decodes
        exact decodes_readAvtabKinds (decodes_readAvtabDatum_extended extended hasXperms decodes)
      · have isMask : specifiedMask written cur = cur.tag.mask := by
          rw [specifiedMask, if_neg]
          rintro ⟨isWritten, -, isDriver⟩
          exact drivers ⟨isWritten, isDriver⟩
        rw [isMask]
        apply decodes_avtabReadItem_of_kinds fits
        rw [if_neg unshifted]
        apply decodes_readAvtabKinds
        apply decodes_readAvtabDatum_extended extended hasXperms
        cases written with
        | false =>
            have isFalse : androidMCompat = false := by
              simpa [Told, eq_comm] using told extended
            rw [isFalse]
            exact decodes_readXperms cur.datum.xperms false (by simpa using specifies)
        | true =>
            have isFunction : cur.datum.xperms.specified = xpermsIoctlfunction := by
              simp only [if_true] at specifies
              tauto
            have compatible : androidMCompat = true ∨
                (cur.datum.xperms.driver ≠ xpermsIoctlfunction ∧
                  cur.datum.xperms.driver ≠ xpermsIoctldriver ∧ vers = versionIoctl) := by
              have isTold := told extended
              simp only [Told, Announces] at isTold
              tauto
            have decodes := decodes_readXperms_compat cur.datum.xperms false compatible
            rwa [if_neg Bool.false_ne_true, ← isFunction] at decodes

end Items

/-! ## Tables -/

theorem avtabHash_lt (mask : UInt32) (key : AvtabTriple) : avtabHash mask key < mask.toNat + 1 := by
  rw [avtabHash, UInt32.toNat_and]
  exact Nat.lt_succ_of_le Nat.and_le_right

theorem Avtab.dataOf_nodes (a : Avtab) (key : AvtabKey) :
    dataOf key.toAvtabTriple key.specified a.nodes = a.data key :=
  a.table.dataOf_nodes (avtabHash_lt a.mask) key.toAvtabTriple key.specified

theorem Avtab.nodes_empty (mask : UInt32) : (Avtab.empty mask).nodes = [] := by
  apply List.eq_nil_iff_forall_not_mem.mpr
  intro cur member
  rcases List.mem_flatMap.mp member with ⟨slot, -, inSlot⟩
  exact absurd inSlot List.not_mem_nil

def Avtab.insertAll (a : Avtab) (nodes : List AvtabNode) : Option Avtab :=
  (a.table.insertAll nodes).map fun table => { a with table }

theorem dataOf_map_keptNode (key : AvtabTriple) (kind : AvtabSpecified) (nodes : List AvtabNode) :
    dataOf key kind (nodes.map keptNode) = (dataOf key kind nodes).map (keptDatum kind) := by
  induction nodes with
  | nil => rfl
  | cons cur rest induction =>
      rw [List.map_cons, show keptNode cur :: rest.map keptNode =
          [keptNode cur] ++ rest.map keptNode from rfl, show cur :: rest = [cur] ++ rest from rfl,
        dataOf_append, dataOf_append, List.map_append, induction, dataOf_singleton,
        dataOf_singleton]
      by_cases same : cur.key = key ∧ cur.tag = kind
      · rcases same with ⟨rfl, rfl⟩
        simp [keptNode]
      · simp [keptNode, same]

/-- The listed nodes of a table fill another one, where equal keys are found in the opposite
order. -/
theorem Avtab.insertAll_nodes (a : Avtab) (mask : UInt32) :
    ∃ loaded, (Avtab.empty mask).insertAll (a.nodes.map keptNode) = some loaded ∧
      ∀ key, loaded.data key = ((a.data key).map (keptDatum key.specified)).reverse := by
  have allowed : ((Avtab.empty mask).table.insertAll (a.nodes.map keptNode)).isSome := by
    rw [insertAll_isSome_iff]
    intro key kind exclusive
    have single := a.table.exclusive key kind exclusive
    rw [dataOf_map_keptNode, List.length_map, a.dataOf_nodes ⟨key, kind⟩, Avtab.data,
      ChainTable.data, List.length_map]
    exact single
  rcases Option.isSome_iff_exists.mp allowed with ⟨table, inserted⟩
  refine ⟨_, congrArg (Option.map _) inserted, fun key => ?_⟩
  have filled := data_insertAll inserted key.toAvtabTriple key.specified
  rw [dataOf_map_keptNode, a.dataOf_nodes] at filled
  exact filled.trans (List.append_nil _)

theorem avtabWriteItem_eq_some {p : AvtabFormat} {cur : AvtabNode} {item : List Byte} :
    avtabWriteItem p cur = some item ↔
      (cur.tag.isXperms = true →
        versionIoctl ≤ p.policyvers ∧ p.targetPlatform = .selinux) ∧
      item = avtabItem p.androidMCompat cur := by
  rw [avtabWriteItem]
  cases cur.tag.isXperms with
  | false => simp [eq_comm]
  | true =>
      by_cases tooOld : p.policyvers < versionIoctl
      · simp [tooOld, Nat.not_le.mpr tooOld]
      · by_cases platform : p.targetPlatform = .selinux
        · simp [tooOld, platform, Nat.not_lt.mp tooOld, eq_comm]
        · simp [tooOld, platform]

theorem writeAvtabItems_eq_some {p : AvtabFormat} {nodes : List AvtabNode} {items : List Byte} :
    writeAvtabItems p nodes = some items ↔
      (∀ cur, cur ∈ nodes → cur.tag.isXperms = true →
        versionIoctl ≤ p.policyvers ∧ p.targetPlatform = .selinux) ∧
      items = nodes.flatMap (avtabItem p.androidMCompat) := by
  induction nodes generalizing items with
  | nil =>
      constructor
      · intro written
        cases written
        exact ⟨fun cur member => absurd member List.not_mem_nil, rfl⟩
      · rintro ⟨-, rfl⟩
        rfl
  | cons cur rest induction =>
      rw [List.forall_mem_cons, List.flatMap_cons, writeAvtabItems]
      constructor
      · intro written
        rcases Option.bind_eq_some_iff.mp written with ⟨item, writtenItem, later⟩
        rcases Option.bind_eq_some_iff.mp later with ⟨others, writtenOthers, joined⟩
        rcases avtabWriteItem_eq_some.mp writtenItem with ⟨first, rfl⟩
        rcases induction.mp writtenOthers with ⟨allowed, rfl⟩
        exact ⟨⟨first, allowed⟩, (Option.some.inj joined).symm⟩
      · rintro ⟨⟨first, allowed⟩, rfl⟩
        rw [avtabWriteItem_eq_some.mpr ⟨first, rfl⟩, induction.mpr ⟨allowed, rfl⟩]
        rfl

theorem decodes_readAvtabItems {vers : Nat} {written : Bool} {nodes : List AvtabNode}
    (readable : ∀ cur, cur ∈ nodes → Readable vers written cur) {androidMCompat : Bool}
    (told : ∀ first, nodes.find? (·.tag.isXperms) = some first →
      Told vers written androidMCompat first) {a loaded : Avtab}
    (inserted : a.insertAll (nodes.map keptNode) = some loaded) :
    Decodes id (readAvtabItems vers nodes.length androidMCompat a)
      (nodes.flatMap (avtabItem written))
      (some (loaded, if nodes.any (·.tag.isXperms) then written else androidMCompat)) := by
  induction nodes generalizing androidMCompat a with
  | nil =>
      cases inserted
      exact Decodes.pure _
  | cons cur rest induction =>
      have readableRest := fun other member => readable other (List.mem_cons_of_mem cur member)
      have toldFirst : cur.tag.isXperms = true → Told vers written androidMCompat cur :=
        fun extended => told cur (List.find?_cons_of_pos extended)
      have item := decodes_avtabReadItem (readable cur List.mem_cons_self) toldFirst
      rw [Avtab.insertAll, List.map_cons, insertAll_cons] at inserted
      rcases Option.map_eq_some_iff.mp inserted with ⟨table, insertedBoth, rfl⟩
      rcases Option.bind_eq_some_iff.mp insertedBoth with ⟨next, insertedFirst, insertedRest⟩
      have stepped : avtabInsert a ⟨(keptNode cur).key, (keptNode cur).tag⟩ (keptNode cur).datum =
          some { a with table := next } := by
        rw [avtabInsert, insertedFirst]
        rfl
      have later : ∀ other, Avtab.insertAll { a with table := next } (rest.map keptNode) =
          some other ↔ other = { a with table := table } := by
        intro other
        rw [Avtab.insertAll, insertedRest, Option.map_some, Option.some.injEq, eq_comm]
      rw [List.length_cons, readAvtabItems, List.flatMap_cons]
      refine item.bind ?_
      dsimp only
      rw [if_neg (not_not.mpr rfl), stepped]
      dsimp only
      cases extended : cur.tag.isXperms with
      | true =>
          have both := @induction readableRest written (fun first _ => Or.inl rfl) _
            ((later _).mpr rfl)
          simpa [extended] using both
      | false =>
          have toldRest : ∀ first, rest.find? (·.tag.isXperms) = some first →
              Told vers written androidMCompat first := by
            intro first isFirst
            apply told first
            rw [List.find?_cons_of_neg (by simp [extended])]
            exact isFirst
          have others := induction readableRest toldRest ((later _).mpr rfl)
          simpa [extended] using others

theorem avtabWrite_eq_some {p : AvtabFormat} {a : Avtab} {bytes : List Byte} :
    avtabWrite p a = some bytes ↔
      (∀ cur, cur ∈ a.nodes → cur.tag.isXperms = true →
        versionIoctl ≤ p.policyvers ∧ p.targetPlatform = .selinux) ∧
      bytes = leBytes 4 a.nodes.length ++ a.nodes.flatMap (avtabItem p.androidMCompat) := by
  constructor
  · intro written
    rcases Option.bind_eq_some_iff.mp written with ⟨items, writtenItems, joined⟩
    rcases writeAvtabItems_eq_some.mp writtenItems with ⟨allowed, rfl⟩
    exact ⟨allowed, (Option.some.inj joined).symm⟩
  · rintro ⟨allowed, rfl⟩
    rw [avtabWrite, writeAvtabItems_eq_some.mpr ⟨allowed, rfl⟩]
    rfl

/-- The first node with extended permissions tells a reader the format, if that does not use it
already. -/
def Recognised (vers : Nat) (written androidMCompat : Bool) (a : Avtab) : Prop :=
  ∀ first, a.nodes.find? (·.tag.isXperms) = some first → Told vers written androidMCompat first

/-- A table that was written is read with the data of every key in the opposite order. The
reader either uses the format of the writer already or sees it from the first node with extended
permissions. -/
theorem avtabRead_avtabWrite {p : AvtabFormat} {a : Avtab} {bytes : List Byte}
    (written : avtabWrite p a = some bytes) (someNode : a.nodes ≠ [])
    (countFits : a.nodes.length < 2 ^ 32)
    (readable : ∀ cur, cur ∈ a.nodes → Readable p.policyvers p.androidMCompat cur)
    {androidMCompat : Bool}
    (told : Recognised p.policyvers p.androidMCompat androidMCompat a) :
    ∃ loaded, Decodes id (avtabRead p.policyvers androidMCompat) bytes
        (some (loaded,
          if a.nodes.any (·.tag.isXperms) then p.androidMCompat else androidMCompat)) ∧
      ∀ key, loaded.data key = ((a.data key).map (keptDatum key.specified)).reverse := by
  rcases a.insertAll_nodes (avtabAlloc a.nodes.length).mask with ⟨loaded, inserted, same⟩
  refine ⟨loaded, ?_, same⟩
  rw [(avtabWrite_eq_some.mp written).2, avtabRead, if_neg (Nat.not_lt.mpr p.supported)]
  refine (decodes_nextNumber countFits).bind ?_
  rw [if_neg fun none => someNode (List.length_eq_zero_iff.mp none)]
  exact decodes_readAvtabItems readable told inserted

def ioctlNodes : List AvtabNode :=
  [⟨⟨1, 2, 3⟩, .allowed, { data := 5 }⟩,
    ⟨⟨1, 2, 3⟩, .xpermsAllowed,
      { data := 0, xperms := { specified := xpermsIoctlfunction, driver := 1, perms := 6 } }⟩,
    ⟨⟨1, 2, 3⟩, .xpermsAllowed,
      { data := 0, xperms := { specified := xpermsIoctldriver, driver := 0, perms := 7 } }⟩]

def ioctlTable : Avtab := ((Avtab.empty 0).insertAll ioctlNodes).getD (Avtab.empty 0)

theorem ioctlTable_nodes : ioctlTable.nodes =
    [⟨⟨1, 2, 3⟩, .allowed, { data := 5 }⟩,
      ⟨⟨1, 2, 3⟩, .xpermsAllowed,
        { data := 0, xperms := { specified := xpermsIoctldriver, driver := 0, perms := 7 } }⟩,
      ⟨⟨1, 2, 3⟩, .xpermsAllowed,
        { data := 0, xperms := { specified := xpermsIoctlfunction, driver := 1, perms := 6 } }⟩] := by
  decide

/-- The compatible format, read where it is not known yet. -/
theorem ioctlTable_compat_read : ∃ bytes loaded,
    avtabWrite ⟨30, .selinux, true, by decide⟩ ioctlTable = some bytes ∧
      Decodes id (avtabRead 30 false) bytes (some (loaded, true)) ∧
      ∀ key, loaded.data key = ((ioctlTable.data key).map (keptDatum key.specified)).reverse := by
  have written := avtabWrite_eq_some (p := ⟨30, .selinux, true, by decide⟩) (a := ioctlTable) |>.mpr
    ⟨fun cur _ _ => ⟨by decide, rfl⟩, rfl⟩
  have readable : ∀ cur, cur ∈ ioctlTable.nodes → Readable 30 true cur := by
    simp [ioctlTable_nodes, Readable, versionIoctl, AvtabSpecified.isXperms]
  have told : Recognised 30 true false ioctlTable := by
    intro first isFirst
    rw [ioctlTable_nodes] at isFirst
    cases isFirst
    exact Or.inr ⟨rfl, rfl, Or.inl rfl⟩
  rcases avtabRead_avtabWrite written (by rw [ioctlTable_nodes]; simp)
    (by rw [ioctlTable_nodes]; decide) readable told with ⟨loaded, decodes, same⟩
  rw [ioctlTable_nodes] at decodes
  exact ⟨_, loaded, written, decodes, same⟩

/-! ## What is accepted -/

section Accepted

variable {vers : Nat}

def Loaded (vers : Nat) (androidMCompat : Bool) (cur : AvtabNode) : Prop :=
  Readable vers androidMCompat cur ∧ keptNode cur = cur

def FormatStep (vers : Nat) (compatBefore compatAfter : Bool) : Prop :=
  compatAfter = compatBefore ∨
    compatBefore = false ∧ compatAfter = true ∧ vers = versionIoctl

theorem Loaded.formatStep {compatBefore compatAfter : Bool} {cur : AvtabNode}
    (loaded : Loaded vers compatBefore cur) (step : FormatStep vers compatBefore compatAfter) :
    Loaded vers compatAfter cur := by
  rcases step with rfl | ⟨rfl, rfl, version⟩
  · exact loaded
  · refine ⟨fun extended => ?_, loaded.2⟩
    rcases loaded.1 extended with ⟨hasXperms, specifies⟩
    refine ⟨hasXperms, ?_⟩
    simp only [if_true]
    simp only [Bool.false_eq_true, if_false] at specifies
    tauto

theorem accepts_readXperms {androidMCompat optype : Bool}
    (shifted : optype = true → androidMCompat = true ∧ vers = versionIoctl) :
    Accepts (readXperms vers androidMCompat optype) fun result _ =>
      FormatStep vers androidMCompat result.2 ∧
        if result.2 then
          result.1.specified = xpermsIoctlfunction ∨
            result.1.specified = xpermsIoctldriver ∧ vers = versionIoctl
        else
          vers ≠ versionIoctl ∨ result.1.specified = xpermsIoctlfunction ∨
            result.1.specified = xpermsIoctldriver := by
  apply (accepts_nextNumber 1).bind
  rintro specified _ ⟨specifiedFits, -⟩
  apply Accepts.ite
  · intro compatible
    apply (accepts_nextNumber 32).bind
    intro perms _ _
    apply (Accepts.pure _).mono
    rintro result _ ⟨rfl, -⟩
    constructor
    · cases androidMCompat with
      | true => exact Or.inl rfl
      | false => exact Or.inr ⟨rfl, rfl, (compatible.resolve_left Bool.false_ne_true).2.2⟩
    · cases optype with
      | true => exact Or.inr ⟨rfl, (shifted rfl).2⟩
      | false => exact Or.inl rfl
  · intro notCompatible
    have isFalse : androidMCompat = false :=
      Bool.eq_false_iff.mpr fun isTrue => notCompatible (Or.inl isTrue)
    apply (accepts_nextNumber 1).bind
    intro driver _ _
    apply (accepts_nextNumber 32).bind
    intro perms _ _
    apply (Accepts.pure _).mono
    rintro result _ ⟨rfl, -⟩
    subst isFalse
    refine ⟨Or.inl rfl, ?_⟩
    by_cases version : vers = versionIoctl
    · right
      have isKind : specified = xpermsIoctlfunction.toNat ∨ specified = xpermsIoctldriver.toNat := by
        by_contra neither
        exact notCompatible
          (Or.inr ⟨fun same => neither (Or.inl same), fun same => neither (Or.inr same), version⟩)
      rcases isKind with rfl | rfl
      · exact Or.inl (UInt8.ofNat_toNat)
      · exact Or.inr (UInt8.ofNat_toNat)
    · exact Or.inl version

theorem accepts_readAvtabDatum {androidMCompat optype : Bool} (key : AvtabTriple)
    (kind : AvtabSpecified)
    (shifted : optype = true → androidMCompat = true ∧ vers = versionIoctl) :
    Accepts (readAvtabDatum vers androidMCompat optype kind) fun result _ =>
      FormatStep vers androidMCompat result.2 ∧ Loaded vers result.2 ⟨key, kind, result.1⟩ := by
  apply Accepts.ite (fun _ => Accepts.throw _)
  intro newEnough
  apply Accepts.ite
  · intro extended
    apply (accepts_readXperms shifted).bind
    rintro ⟨xperms, compatAfter⟩ _ ⟨step, specifies⟩
    apply (Accepts.pure _).mono
    rintro result _ ⟨rfl, -⟩
    have hasXperms : versionIoctl ≤ vers :=
      Nat.not_lt.mp fun tooOld => newEnough ⟨tooOld, extended⟩
    refine ⟨step, fun _ => ⟨hasXperms, specifies⟩, ?_⟩
    rw [keptNode, keptDatum, if_pos extended]
  · intro plain
    apply (accepts_nextNumber 4).bind
    intro data _ _
    apply (Accepts.pure _).mono
    rintro result _ ⟨rfl, -⟩
    refine ⟨Or.inl rfl, fun extended => absurd extended plain, ?_⟩
    rw [keptNode, keptDatum, if_neg plain]

theorem accepts_readAvtabKinds {androidMCompat optype : Bool} (key : AvtabTriple) (specified : Nat)
    (shifted : optype = true → androidMCompat = true ∧ vers = versionIoctl) :
    Accepts (readAvtabKinds vers androidMCompat optype key specified) fun result _ =>
      FormatStep vers androidMCompat result.2 ∧ Loaded vers result.2 result.1.node := by
  rw [readAvtabKinds]
  split
  · rename_i kind _
    apply (accepts_readAvtabDatum key kind shifted).bind
    rintro ⟨datum, compatAfter⟩ _ holds
    apply (Accepts.pure _).mono
    rintro result _ ⟨rfl, -⟩
    exact holds
  · exact Accepts.throw _

theorem accepts_avtabReadItem (androidMCompat : Bool) :
    Accepts (avtabReadItem vers androidMCompat) fun result _ =>
      FormatStep vers androidMCompat result.2 ∧ Loaded vers result.2 result.1.node := by
  apply (accepts_nextNumber 2).bind
  intro sourceType _ _
  apply (accepts_nextNumber 2).bind
  intro targetType _ _
  apply (accepts_nextNumber 2).bind
  intro targetClass _ _
  apply (accepts_nextNumber 2).bind
  intro specified _ _
  apply Accepts.ite
  · rintro ⟨-, version⟩
    apply (accepts_readAvtabKinds _ _ fun _ => ⟨rfl, version⟩).mono
    rintro ⟨item, compatAfter⟩ _ ⟨step, loaded⟩
    have stays : compatAfter = true := by simpa [FormatStep] using step
    refine ⟨?_, loaded⟩
    cases androidMCompat with
    | true => exact Or.inl stays
    | false => exact Or.inr ⟨rfl, stays, version⟩
  · intro _
    exact accepts_readAvtabKinds _ _ fun isTrue => absurd isTrue Bool.false_ne_true

theorem FormatStep.trans {first second third : Bool} (earlier : FormatStep vers first second)
    (later : FormatStep vers second third) : FormatStep vers first third := by
  rcases earlier with rfl | ⟨rfl, rfl, version⟩
  · exact later
  · rcases later with rfl | ⟨impossible, -⟩
    · exact Or.inr ⟨rfl, rfl, version⟩
    · cases impossible

theorem Avtab.perm_nodes_insert {a result : Avtab} {key : AvtabKey} {datum : AvtabDatum}
    (inserted : avtabInsert a key datum = some result) :
    result.nodes.Perm (⟨key.toAvtabTriple, key.specified, datum⟩ :: a.nodes) := by
  rcases Option.map_eq_some_iff.mp inserted with ⟨table, tableInserted, rfl⟩
  exact ChainTable.perm_nodes_insert tableInserted (avtabHash_lt a.mask key.toAvtabTriple)

theorem accepts_readAvtabItems (left : Nat) {androidMCompat : Bool} {a : Avtab}
    (sofar : ∀ cur, cur ∈ a.nodes → Loaded vers androidMCompat cur) :
    Accepts (readAvtabItems vers left androidMCompat a) fun result _ =>
      ∀ loaded compatAfter, result = some (loaded, compatAfter) →
        loaded.nodes.length = a.nodes.length + left ∧
          FormatStep vers androidMCompat compatAfter ∧
          ∀ cur, cur ∈ loaded.nodes → Loaded vers compatAfter cur := by
  induction left generalizing androidMCompat a with
  | zero =>
      apply (Accepts.pure _).mono
      rintro result _ ⟨rfl, -⟩ loaded compatAfter isLoaded
      cases isLoaded
      exact ⟨rfl, Or.inl rfl, sofar⟩
  | succ left induction =>
      apply (accepts_avtabReadItem androidMCompat).bind
      rintro ⟨item, compatNext⟩ _ ⟨step, loadedItem⟩
      apply Accepts.ite
      · intro _
        apply (Accepts.pure _).mono
        rintro result _ ⟨rfl, -⟩ loaded compatAfter isLoaded
        cases isLoaded
      · intro _
        split
        · exact Accepts.throw _
        · rename_i next inserted
          have added := Avtab.perm_nodes_insert inserted
          have sofarNext : ∀ cur, cur ∈ next.nodes → Loaded vers compatNext cur := by
            intro cur member
            rcases List.mem_cons.mp (added.mem_iff.mp member) with rfl | earlier
            · exact loadedItem
            · exact (sofar cur earlier).formatStep step
          apply (induction sofarNext).mono
          intro result _ holds loaded compatAfter isLoaded
          rcases holds loaded compatAfter isLoaded with ⟨count, laterStep, loadedAll⟩
          refine ⟨?_, step.trans laterStep, loadedAll⟩
          rw [count, added.length_eq, List.length_cons]
          omega

theorem accepts_avtabRead (vers : Nat) (androidMCompat : Bool) :
    Accepts (avtabRead vers androidMCompat) fun result _ =>
      ∀ loaded compatAfter, result = some (loaded, compatAfter) →
        loaded.nodes ≠ [] ∧ loaded.nodes.length < 2 ^ 32 ∧
          FormatStep vers androidMCompat compatAfter ∧
          ∀ cur, cur ∈ loaded.nodes → Loaded vers compatAfter cur := by
  apply Accepts.ite
  · intro _
    apply (Accepts.pure _).mono
    rintro result _ ⟨rfl, -⟩ loaded compatAfter isLoaded
    cases isLoaded
  intro _
  apply (accepts_nextNumber 4).bind
  rintro nel _ ⟨countFits, -⟩
  apply Accepts.ite (fun _ => Accepts.throw _)
  intro someNode
  have noNodes : (avtabAlloc nel).nodes = [] := Avtab.nodes_empty _
  have sofar : ∀ cur, cur ∈ (avtabAlloc nel).nodes → Loaded vers androidMCompat cur := by
    rw [noNodes]
    exact fun cur member => absurd member List.not_mem_nil
  apply (accepts_readAvtabItems nel sofar).mono
  intro result _ holds loaded compatAfter isLoaded
  rcases holds loaded compatAfter isLoaded with ⟨count, step, loadedAll⟩
  rw [noNodes, List.length_nil, Nat.zero_add] at count
  refine ⟨?_, by omega, step, loadedAll⟩
  intro none
  rw [none] at count
  exact someNode count.symm

end Accepted

/-- Every table that a fresh process accepts can be written in the format in use afterwards. A
fresh process that recognises it reads the data of every key in the opposite order. -/
theorem avtabRead_restorable {vers : Nat} (supported : versionAvtab ≤ vers) {compatAfter : Bool}
    {text rest : List Byte} {loaded : Avtab}
    (accepted : avtabRead vers false text = .ok (some (loaded, compatAfter), rest)) :
    ∃ bytes, avtabWrite ⟨vers, .selinux, compatAfter, supported⟩ loaded = some bytes ∧
      (Recognised vers compatAfter false loaded → ∃ again,
        Decodes id (avtabRead vers false) bytes
          (some (again, if loaded.nodes.any (·.tag.isXperms) then compatAfter else false)) ∧
        ∀ key, again.data key = (loaded.data key).reverse) := by
  rcases accepts_avtabRead vers false text _ rest accepted with ⟨_, -, holds⟩
  rcases holds loaded compatAfter rfl with ⟨someNode, countFits, -, loadedAll⟩
  have written := avtabWrite_eq_some (p := ⟨vers, .selinux, compatAfter, supported⟩) (a := loaded)
    |>.mpr ⟨fun cur member extended => ⟨((loadedAll cur member).1 extended).1, rfl⟩, rfl⟩
  refine ⟨_, written, fun recognised => ?_⟩
  rcases avtabRead_avtabWrite written someNode countFits
    (fun cur member => (loadedAll cur member).1) recognised with ⟨again, decodes, same⟩
  refine ⟨again, decodes, fun key => ?_⟩
  have kept : ∀ datum, datum ∈ loaded.data key → keptDatum key.specified datum = datum := by
    intro datum member
    have inNodes : ⟨key.toAvtabTriple, key.specified, datum⟩ ∈ loaded.nodes := by
      rw [← mem_dataOf, loaded.dataOf_nodes key]
      exact member
    exact congrArg Node.datum (loadedAll _ inNodes).2
  rw [same, List.map_congr_left kept, List.map_id']

/-- A rule and a node for commands of the driver 0x54, in the compatible format. -/
def twoRulesText : List Byte :=
  [2, 0, 0, 0, 1, 0, 2, 0, 3, 0, 1, 0, 5, 0, 0, 0, 1, 0, 2, 0, 3, 0, 0, 1, 0x54, 6] ++
    List.replicate 31 0

def tableRead : Except Int (Option (Avtab × Bool) × List Byte) → Option (Avtab × Bool)
  | .ok (table, []) => table
  | _ => none

theorem tableRead_eq_some_iff {result : Except Int (Option (Avtab × Bool) × List Byte)}
    {table : Avtab × Bool} : tableRead result = some table ↔ result = .ok (some table, []) := by
  constructor
  · intro isRead
    unfold tableRead at isRead
    split at isRead
    · rw [isRead]
    · cases isRead
  · rintro rfl
    rfl

theorem twoRules_restorable : ∃ loaded bytes again,
    avtabRead 30 false twoRulesText = .ok (some (loaded, true), []) ∧
      avtabWrite ⟨30, .selinux, true, by decide⟩ loaded = some bytes ∧
      Decodes id (avtabRead 30 false) bytes (some (again, true)) ∧
      ∀ key, again.data key = (loaded.data key).reverse := by
  have reads : (tableRead (avtabRead 30 false twoRulesText)).any (fun table =>
      table.2 ∧ table.1.nodes.any (·.tag.isXperms) ∧
        (table.1.nodes.find? (·.tag.isXperms)).all (fun first => decide (Announces first))) =
      true := by decide +kernel
  rcases (Option.any_eq_true _ _).mp reads with ⟨⟨loaded, compat⟩, isRead, holds⟩
  rcases of_decide_eq_true holds with ⟨isCompat, extended, announces⟩
  cases isCompat
  have accepted := tableRead_eq_some_iff.mp isRead
  have recognised : Recognised 30 true false loaded := by
    intro first isFirst
    rw [isFirst] at announces
    exact Or.inr ⟨rfl, rfl, of_decide_eq_true announces⟩
  rcases avtabRead_restorable (by decide) accepted with ⟨bytes, written, restores⟩
  rcases restores recognised with ⟨again, decodes, same⟩
  rw [extended] at decodes
  exact ⟨loaded, bytes, again, accepted, written, decodes, same⟩

end SuBinary.Sepol
