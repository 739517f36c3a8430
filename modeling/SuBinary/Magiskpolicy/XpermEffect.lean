import SuBinary.Magiskpolicy.RuleEffect

/-! # The effect of an ioctl rule

An ioctl command is sixteen bits, a driver and a function. A node lists either
functions of one driver or whole drivers, so a rule is exact only if the node
it ends up in can say what the rule says.
-/

namespace SuBinary.Magiskpolicy

open SuBinary Sepol

/-! ## Coverage -/

/-- The node covers command `x`. -/
def Covers (xperms : ExtendedPerms) (x : UInt16) : Prop :=
  (xperms.specified = xpermsIoctlfunction ∧ xperms.driver.toNat = ioctlDriver x ∧
    xperms.perms.getLsbD (ioctlFunc x) = true) ∨
  (xperms.specified = xpermsIoctldriver ∧ xperms.perms.getLsbD (ioctlDriver x) = true)

/-- Some node of the key covers command `x`. -/
def Covered (h : Avtab) (key : AvtabKey) (x : UInt16) : Prop :=
  ∃ datum, datum ∈ h.data key ∧ Covers datum.xperms x

def InRange (low high x : UInt16) : Prop := low ≤ x ∧ x ≤ high

/-- The commands that a rule for `low` to `high` adds when it is written to a
node of this kind and driver. -/
def Reaches (xperms : ExtendedPerms) (low high x : UInt16) : Prop :=
  (xperms.specified = xpermsIoctlfunction ∧ xperms.driver.toNat = ioctlDriver x ∧
    ioctlFunc low ≤ ioctlFunc x ∧ ioctlFunc x ≤ ioctlFunc high) ∨
  (xperms.specified = xpermsIoctldriver ∧
    ioctlDriver low ≤ ioctlDriver x ∧ ioctlDriver x ≤ ioctlDriver high)

theorem editXpermBits_bit (first last bit : Nat) (perms : BitVec 256)
    (inside : bit < 256) :
    (editXpermBits first last false perms).getLsbD bit = true ↔
      perms.getLsbD bit = true ∨ (first ≤ bit ∧ bit ≤ last) := by
  have sets : ∀ (perms : BitVec 256) i, (xpermSet i perms).getLsbD bit = true ↔
      perms.getLsbD bit = true ∨ i = bit := by
    intro perms i
    simp only [xpermSet, BitVec.getLsbD_or, Bool.or_eq_true]
    apply or_congr_right
    simp
    omega
  refine (foldl_iff_exists (fun perms : BitVec 256 => perms.getLsbD bit = true)
    _ (fun perms i _ => sets perms i) perms).trans (or_congr_right ?_)
  simp only [List.mem_range'_1, exists_eq_right]
  omega

theorem editXpermBits_idempotent (first last : Nat) (perms : BitVec 256) :
    editXpermBits first last false (editXpermBits first last false perms) =
      editXpermBits first last false perms := by
  apply BitVec.eq_of_getLsbD_eq
  intro bit inside
  rw [Bool.eq_iff_iff, editXpermBits_bit _ _ _ _ inside, editXpermBits_bit _ _ _ _ inside]
  tauto

theorem editXpermDatum_idempotent (low high : UInt16) (datum : AvtabDatum) :
    editXpermDatum low high false (editXpermDatum low high false datum) =
      editXpermDatum low high false datum := by
  by_cases byDriver : datum.xperms.specified = xpermsIoctldriver
  · simp [editXpermDatum, editXperms, byDriver, editXpermBits_idempotent]
  · simp [editXpermDatum, editXperms, byDriver, editXpermBits_idempotent]

theorem data_editXpermKeys (low high : UInt16) (keys : List AvtabKey) (h : Avtab)
    (key : AvtabKey) :
    (editKeys { data := 0, xperms := newXperms low high } (editXpermDatum low high false) keys
        h).data key =
      if key ∈ keys then
        editXpermDatum low high false
            ((h.data key).headD { data := 0, xperms := newXperms low high }) ::
          (h.data key).tail
      else h.data key :=
  Avtab.data_foldl_upsert keys _ _ (editXpermDatum_idempotent low high) h key

theorem ioctlDriver_eq (x : UInt16) : ioctlDriver x = x.toNat / 256 := by
  have small : x.toNat / 2 ^ 8 < 2 ^ 8 := by
    have := x.toNat_lt
    omega
  rw [ioctlDriver, Nat.shiftRight_eq_div_pow, Nat.and_two_pow_sub_one_of_lt_two_pow small]
  norm_num

theorem ioctlFunc_eq (x : UInt16) : ioctlFunc x = x.toNat % 256 :=
  Nat.and_two_pow_sub_one_eq_mod x.toNat 8

theorem covers_editXperms (xperms : ExtendedPerms) (low high x : UInt16) :
    Covers (editXperms low high false xperms) x ↔
      Covers xperms x ∨ Reaches xperms low high x := by
  have driverInside : ioctlDriver x < 256 := by
    have := x.toNat_lt
    rw [ioctlDriver_eq]
    omega
  have funcInside : ioctlFunc x < 256 := by
    rw [ioctlFunc_eq]
    omega
  have kinds : xpermsIoctldriver ≠ xpermsIoctlfunction := by decide
  by_cases byDriver : xperms.specified = xpermsIoctldriver
  · simp [Covers, Reaches, editXperms, byDriver, kinds,
      editXpermBits_bit _ _ _ _ driverInside]
  · simp only [Covers, Reaches, editXperms, byDriver, if_false, false_and, or_false,
      editXpermBits_bit _ _ _ _ funcInside]
    tauto

theorem covers_newXperms (low high x : UInt16) : ¬Covers (newXperms low high) x := by
  rw [newXperms]
  split <;> simp [Covers]

/-! ## When a rule is exact -/

/-- The rule's range can be said in the node it is written to, or was covered
as far as it cannot: a new node takes a range inside one driver or of whole
drivers; a node of drivers adds whole drivers; a node of functions adds
functions of its own driver. -/
def RuleFits (h : Avtab) (key : AvtabKey) (low high : UInt16) : Prop :=
  match avtabSearch h key with
  | none =>
      ioctlDriver low = ioctlDriver high ∨ (ioctlFunc low = 0 ∧ ioctlFunc high = 0xFF)
  | some av =>
      if av.xperms.specified = xpermsIoctldriver then
        ∀ x, (ioctlDriver x = ioctlDriver low ∧ x < low) ∨
          (ioctlDriver x = ioctlDriver high ∧ high < x) → Covered h key x
      else if av.xperms.specified = xpermsIoctlfunction then
        (∀ x, InRange low high x → av.xperms.driver.toNat ≠ ioctlDriver x ∨
          ioctlFunc x < ioctlFunc low ∨ ioctlFunc high < ioctlFunc x → Covered h key x) ∧
        ∀ x, av.xperms.driver.toNat = ioctlDriver x → ioctlFunc low ≤ ioctlFunc x →
          ioctlFunc x ≤ ioctlFunc high → ¬InRange low high x → Covered h key x
      else ∀ x, InRange low high x → Covered h key x

/-- The rule succeeds, adds the commands of its range to its key and leaves the
coverage of every other key alone. -/
def AddsExactly (db : Policydb) (s t c : Nat) (low high : UInt16)
    (effect : AvtabSpecified) : Prop :=
  (__addXpermRule db s t c low high effect false).2 = 0 ∧
  (∀ x, Covered (__addXpermRule db s t c low high effect false).1.teAvtab
      (ruleKey s t c effect) x ↔
    Covered db.teAvtab (ruleKey s t c effect) x ∨ InRange low high x) ∧
  ∀ key, key ≠ ruleKey s t c effect → ∀ x,
    Covered (__addXpermRule db s t c low high effect false).1.teAvtab key x ↔
      Covered db.teAvtab key x

def chosenXperms (h : Avtab) (key : AvtabKey) (low high : UInt16) : ExtendedPerms :=
  match avtabSearch h key with
  | none => newXperms low high
  | some av => av.xperms

theorem editsKeys_addXpermRule (db : Policydb) (s t c : Nat) (low high : UInt16)
    (effect : AvtabSpecified) (not : Bool) :
    EditsKeys db { data := 0, xperms := newXperms low high } (editXpermDatum low high not)
      (fun db => __addXpermRule db s t c low high effect not) [ruleKey s t c effect] :=
  editsKeys_upsertRule db (ruleKey s t c effect) _ (editXpermDatum low high not)

theorem addXpermRule_eq_upsert (db : Policydb) (s t c : Nat) (low high : UInt16)
    (effect : AvtabSpecified) (not : Bool) :
    __addXpermRule db s t c low high effect not =
      ({ db with
          teAvtab := db.teAvtab.upsert (ruleKey s t c effect)
            { data := 0, xperms := newXperms low high } (editXpermDatum low high not) }, 0) :=
  editsKeys_addXpermRule db s t c low high effect not db.teAvtab

theorem covered_addXpermRule (db : Policydb) (s t c : Nat) (low high : UInt16)
    (effect : AvtabSpecified) (x : UInt16) :
    Covered (__addXpermRule db s t c low high effect false).1.teAvtab
        (ruleKey s t c effect) x ↔
      Covered db.teAvtab (ruleKey s t c effect) x ∨
        Reaches (chosenXperms db.teAvtab (ruleKey s t c effect) low high) low high x := by
  rw [addXpermRule_eq_upsert]
  simp only [Covered, Avtab.data_upsert, if_true, List.mem_cons, exists_eq_or_imp,
    editXpermDatum, covers_editXperms, chosenXperms, Avtab.search_eq_head?]
  cases db.teAvtab.data (ruleKey s t c effect) with
  | nil => simp [covers_newXperms]
  | cons first rest =>
      simp only [List.headD_cons, List.tail_cons, List.head?_cons, List.mem_cons,
        exists_eq_or_imp]
      rw [or_right_comm]

theorem covered_other_addXpermRule (db : Policydb) (s t c : Nat) (low high : UInt16)
    (effect : AvtabSpecified) (key : AvtabKey) (other : key ≠ ruleKey s t c effect)
    (x : UInt16) :
    Covered (__addXpermRule db s t c low high effect false).1.teAvtab key x ↔
      Covered db.teAvtab key x := by
  rw [addXpermRule_eq_upsert]
  simp only [Covered, Avtab.data_upsert, Ne.symm other, if_false]

theorem reaches_newXperms_of_eq {low high : UInt16}
    (oneDriver : ioctlDriver low = ioctlDriver high) (x : UInt16) :
    Reaches (newXperms low high) low high x ↔
      ioctlDriver low = ioctlDriver x ∧ ioctlFunc low ≤ ioctlFunc x ∧
        ioctlFunc x ≤ ioctlFunc high := by
  have driverByte : (UInt8.ofNat (ioctlDriver low)).toNat = ioctlDriver low := by
    have small : ioctlDriver low < 2 ^ 8 := by
      have := low.toNat_lt
      rw [ioctlDriver_eq]
      omega
    exact UInt8.toNat_ofNat_of_lt' small
  have kinds : xpermsIoctlfunction ≠ xpermsIoctldriver := by decide
  rw [newXperms, if_neg (not_not.mpr oneDriver)]
  simp only [Reaches, driverByte, kinds, true_and, false_and, or_false]

theorem reaches_newXperms_of_ne {low high : UInt16}
    (drivers : ioctlDriver low ≠ ioctlDriver high) (x : UInt16) :
    Reaches (newXperms low high) low high x ↔
      ioctlDriver low ≤ ioctlDriver x ∧ ioctlDriver x ≤ ioctlDriver high := by
  have kinds : xpermsIoctldriver ≠ xpermsIoctlfunction := by decide
  rw [newXperms, if_pos drivers]
  simp only [Reaches, kinds, true_and, false_and, false_or]

/-- A new node reaches exactly its range if the range lies in one driver or is
made of whole drivers. -/
theorem reaches_newXperms_iff {low high : UInt16} (ordered : low ≤ high) :
    (∀ x, Reaches (newXperms low high) low high x ↔ InRange low high x) ↔
      ioctlDriver low = ioctlDriver high ∨
        (ioctlFunc low = 0 ∧ ioctlFunc high = 0xFF) := by
  rw [UInt16.le_iff_toNat_le] at ordered
  have lowBound := low.toNat_lt
  have highBound := high.toNat_lt
  by_cases oneDriver : ioctlDriver low = ioctlDriver high
  · refine iff_of_true (fun x => ?_) (Or.inl oneDriver)
    rw [reaches_newXperms_of_eq oneDriver]
    simp only [InRange, UInt16.le_iff_toNat_le, ioctlDriver_eq, ioctlFunc_eq] at oneDriver ⊢
    omega
  · simp only [reaches_newXperms_of_ne oneDriver, InRange, UInt16.le_iff_toNat_le,
      ioctlDriver_eq, ioctlFunc_eq] at oneDriver ⊢
    constructor
    · intro reached
      have firstBound : low.toNat / 256 * 256 < 2 ^ 16 := by omega
      have lastBound : 255 + high.toNat / 256 * 256 < 2 ^ 16 := by omega
      have first := (reached (UInt16.ofNat (low.toNat / 256 * 256))).mp
      have last := (reached (UInt16.ofNat (255 + high.toNat / 256 * 256))).mp
      rw [UInt16.toNat_ofNat_of_lt' firstBound] at first
      rw [UInt16.toNat_ofNat_of_lt' lastBound] at last
      omega
    · intro whole x
      omega

/-- The condition says that what the chosen node reaches and what the rule asks
for differ only by commands that were covered. -/
theorem ruleFits_iff_reaches (h : Avtab) (key : AvtabKey) {low high : UInt16}
    (ordered : low ≤ high) :
    RuleFits h key low high ↔
      ∀ x, (Covered h key x ∨ Reaches (chosenXperms h key low high) low high x ↔
        Covered h key x ∨ InRange low high x) := by
  have kinds : xpermsIoctldriver ≠ xpermsIoctlfunction := by decide
  unfold RuleFits chosenXperms
  cases searched : avtabSearch h key with
  | none =>
      have uncovered : ∀ x, ¬Covered h key x := by
        rw [Avtab.search_eq_head?, List.head?_eq_none_iff] at searched
        simp [Covered, searched]
      simp only [uncovered, false_or]
      exact (reaches_newXperms_iff ordered).symm
  | some av =>
      dsimp only
      split
      · rename_i byDriver
        apply forall_congr'
        intro x
        simp only [Reaches, byDriver, kinds, true_and, false_and, false_or, InRange,
          UInt16.le_iff_toNat_le, UInt16.lt_iff_toNat_lt, ioctlDriver_eq] at ordered ⊢
        by_cases already : Covered h key x
        · simp [already]
        · simp only [already, imp_false, false_or]
          omega
      · rename_i notByDriver
        split
        · rename_i byFunction
          rw [← forall_and]
          apply forall_congr'
          intro x
          simp only [Reaches, byFunction, Ne.symm kinds, true_and, false_and, or_false]
          by_cases already : Covered h key x
          · simp [already]
          · simp only [already, imp_false, false_or]
            grind
        · rename_i notByFunction
          apply forall_congr'
          intro x
          simp only [Reaches, notByDriver, notByFunction, false_and, or_false]
          tauto

/-- A rule adds exactly its range if and only if its range fits the node it is
written to. -/
theorem addsExactly_iff_ruleFits (db : Policydb) (s t c : Nat) (low high : UInt16)
    (ordered : low ≤ high) (effect : AvtabSpecified) :
    AddsExactly db s t c low high effect ↔
      RuleFits db.teAvtab (ruleKey s t c effect) low high := by
  rw [ruleFits_iff_reaches _ _ ordered]
  constructor
  · rintro ⟨-, adds, -⟩ x
    rw [← covered_addXpermRule]
    exact adds x
  · intro fits
    refine ⟨?_, fun x => ?_, fun key other x => ?_⟩
    · rw [addXpermRule_eq_upsert]
    · rw [covered_addXpermRule]
      exact fits x
    · exact covered_other_addXpermRule db s t c low high effect key other x

/-- Once functions of driver `0x89` are listed, another range of this driver is exact. -/
theorem addsExactly_one_driver :
    AddsExactly (__addXpermRule (shellPolicydb auditedTable).toPolicydb 1 2 1 0x8940 0x8950
      .xpermsAllowed false).1 1 2 1 0x8910 0x8927 .xpermsAllowed := by
  apply (addsExactly_iff_ruleFits _ 1 2 1 0x8910 0x8927 (by decide) .xpermsAllowed).mpr
  have stored : avtabSearch (__addXpermRule (shellPolicydb auditedTable).toPolicydb 1 2 1
      0x8940 0x8950 .xpermsAllowed false).1.teAvtab (ruleKey 1 2 1 .xpermsAllowed) =
      some (editXpermDatum 0x8940 0x8950 false
        { data := 0, xperms := newXperms 0x8940 0x8950 }) := rfl
  have isNode : (editXpermDatum 0x8940 0x8950 false
      { data := 0, xperms := newXperms 0x8940 0x8950 }).xperms.specified =
        xpermsIoctlfunction := rfl
  have isDriver : (editXpermDatum 0x8940 0x8950 false
      { data := 0, xperms := newXperms 0x8940 0x8950 }).xperms.driver.toNat = 0x89 := by decide
  unfold RuleFits
  rw [stored]
  dsimp only
  rw [isNode, isDriver, if_neg (by decide), if_pos rfl]
  have first : (0x8910 : UInt16).toNat = 0x8910 := rfl
  have last : (0x8927 : UInt16).toNat = 0x8927 := rfl
  simp only [InRange, UInt16.le_iff_toNat_le, ioctlDriver_eq, ioctlFunc_eq, first, last]
  constructor
  · intro x inside outside
    omega
  · intro x sameDriver above below outside
    omega

/-- After a rule for `0x8910`, a rule for `0x5401` on the same key covers
`0x8901` instead. -/
theorem second_driver_not_addsExactly :
    ¬AddsExactly (__addXpermRule (shellPolicydb auditedTable).toPolicydb 1 2 1 0x8910
      0x8910 .xpermsAllowed false).1 1 2 1 0x5401 0x5401 .xpermsAllowed := by
  rintro ⟨-, adds, -⟩
  have asked := (adds 0x5401).mpr (Or.inr ⟨by decide, by decide⟩)
  rw [covered_addXpermRule, covered_addXpermRule] at asked
  have before : auditedTable.data (ruleKey 1 2 1 .xpermsAllowed) = [] := rfl
  have firstNode : chosenXperms (shellPolicydb auditedTable).teAvtab
      (ruleKey 1 2 1 .xpermsAllowed) 0x8910 0x8910 = newXperms 0x8910 0x8910 := rfl
  have secondNode : chosenXperms (__addXpermRule (shellPolicydb auditedTable).toPolicydb
      1 2 1 0x8910 0x8910 .xpermsAllowed false).1.teAvtab (ruleKey 1 2 1 .xpermsAllowed)
      0x5401 0x5401 = editXperms 0x8910 0x8910 false (newXperms 0x8910 0x8910) := rfl
  rw [firstNode, secondNode] at asked
  rcases asked with (covered | reached) | reached
  · rcases covered with ⟨datum, member, -⟩
    exact absurd member (by simp [shellPolicydb, before])
  · exact absurd reached (by unfold Reaches; decide)
  · exact absurd reached (by unfold Reaches; decide)

end SuBinary.Magiskpolicy
