import SuBinary.Magiskpolicy.Sepolicy

/-! # The effect of a rule statement on the table

A rule statement edits one access vector for every source, target and class
its names or wildcards stand for, and nothing else.
-/

namespace SuBinary.Magiskpolicy

open SuBinary Sepol

/-! ## What a statement stands for -/

/-- The data a name stands for; `ALL` stands for the whole table. -/
def matched (table : Hashtab Datum) : Option CString → List Datum
  | none => table.data
  | some name => (hashtabSearch table name).toList

def expanded (table : Hashtab Datum) : Option Datum → List Datum
  | none => table.data
  | some datum => [datum]

/-- `key` is one of the keys a statement is about. -/
structure MatchesRule (db : Policydb) (s t c : Option CString) (effect : AvtabSpecified)
    (key : AvtabKey) : Prop where
  specified : key.specified = effect
  source : ∃ src, src ∈ matched db.pTypes s ∧ src.value = key.sourceType.toNat
  target : ∃ tgt, tgt ∈ matched db.pTypes t ∧ tgt.value = key.targetType.toNat
  targetClass : ∃ cls, cls ∈ matched db.pClasses c ∧ cls.value = key.targetClass.toNat

/-- The permission that a name stands for in a class: one of its own or, if it has none of that
name, one of its common. -/
inductive NamedIn (cls : ClassDatum) (name : CString) (perm : PermDatum) : Prop
  | own (member : (name, perm) ∈ cls.permissions.entries)
  | inherited (notOwn : name ∉ cls.permissions.entries.map Prod.fst) (common : CommonDatum)
      (isCommon : cls.comdatum = some common) (member : (name, perm) ∈ common.permissions.entries)

theorem classPerm_eq_some_iff {cls : ClassDatum} {name : CString} {perm : PermDatum} :
    classPerm cls name = some perm ↔ NamedIn cls name perm := by
  rw [classPerm]
  cases searched : hashtabSearch cls.permissions name with
  | some own =>
      have member := (hashtabSearch_eq_some_iff _ _ _).mp searched
      constructor
      · rintro ⟨⟩
        exact .own member
      · rintro (other | ⟨notOwn, -⟩)
        · exact searched.symm.trans ((hashtabSearch_eq_some_iff _ _ _).mpr other)
        · exact absurd (List.mem_map_of_mem member) notOwn
  | none =>
      have notOwn := (hashtabSearch_eq_none_iff _ _).mp searched
      rw [Option.bind_eq_some_iff]
      constructor
      · rintro ⟨common, isCommon, inherited⟩
        exact .inherited notOwn common isCommon ((hashtabSearch_eq_some_iff _ _ _).mp inherited)
      · rintro (own | ⟨-, common, isCommon, inherited⟩)
        · exact absurd (List.mem_map_of_mem own) notOwn
        · exact ⟨common, isCommon, (hashtabSearch_eq_some_iff _ _ _).mpr inherited⟩

/-- The permission of a statement, given by its position in the access vector;
`ALL` has every position. -/
def NamesBit (db : Policydb) (c p : Option CString) (bit : Nat) : Prop :=
  ∀ permName, p = some permName → ∃ className cls perm, c = some className ∧
    (className, cls) ∈ db.pClasses.entries ∧ NamedIn cls permName perm ∧ bit + 1 = perm.value

/-- The bits of a permission that was looked up; `ALL` has all of them. -/
def AffectsBit (perm : Option PermDatum) (bit : Nat) : Prop :=
  ∀ named, perm = some named → bit + 1 = named.value

/-- The access vector stored under a key, zero if there is none. -/
def storedVector (h : Avtab) (key : AvtabKey) : BitVec 32 :=
  match avtabSearch h key with
  | none => 0
  | some datum => datum.data

def ruleKeys (effect : AvtabSpecified) (srcs tgts : List TypeDatum)
    (clss : List ClassDatum) : List AvtabKey :=
  srcs.flatMap fun src => tgts.flatMap fun tgt => clss.map fun cls =>
    ruleKey src.value tgt.value cls.value effect

/-! ## Edits of single vectors -/

/-- The integer `add_rule_auto` passes on for a permission. -/
def permArg : Option PermDatum → Int
  | some perm => perm.value
  | none => -1

theorem editVector_idempotent (p : Int) (not : Bool) (data : BitVec 32) :
    editVector p not (editVector p not data) = editVector p not data := by
  unfold editVector
  cases not with
  | false =>
      by_cases all : p < 0
      · simp [all]
      · simp [all, BitVec.or_assoc]
  | true =>
      by_cases all : p < 0
      · simp [all]
      · simp [all, BitVec.and_assoc]

theorem editDatum_idempotent (p : Int) (not : Bool) (datum : AvtabDatum) :
    editDatum p not (editDatum p not datum) = editDatum p not datum := by
  simp [editDatum, editVector_idempotent]

theorem permBit_getLsbD {value bit : Nat} (positive : 1 ≤ value) (inside : bit < 32) :
    ((1 : BitVec 32) <<< ((value : Int) - 1).toNat).getLsbD bit =
      decide (bit + 1 = value) := by
  have shift : ((value : Int) - 1).toNat = value - 1 := by omega
  rw [shift, BitVec.getLsbD_shiftLeft]
  change (decide (bit < 32) && !decide (bit < value - 1) &&
    (1#32).getLsbD (bit - (value - 1))) = _
  rw [BitVec.getLsbD_one]
  by_cases here : bit + 1 = value
  · simp [here, inside, show ¬bit < value - 1 by omega, show bit - (value - 1) = 0 by omega]
  · by_cases below : bit < value - 1
    · simp [below, here]
    · simp [here, show bit - (value - 1) ≠ 0 by omega]

theorem editVector_bit (perm : Option PermDatum) (not : Bool) (data : BitVec 32)
    (fits : ∀ named, perm = some named → 1 ≤ named.value ∧ named.value ≤ 32)
    (bit : Nat) (inside : bit < 32) :
    (AffectsBit perm bit → (editVector (permArg perm) not data).getLsbD bit = !not) ∧
      (¬AffectsBit perm bit →
        (editVector (permArg perm) not data).getLsbD bit = data.getLsbD bit) := by
  cases perm with
  | none =>
      have every : AffectsBit none bit := fun _ impossible => nomatch impossible
      refine ⟨fun _ => ?_, fun other => absurd every other⟩
      cases not with
      | false =>
          change (BitVec.allOnes 32).getLsbD bit = true
          rw [BitVec.getLsbD_allOnes]
          simpa using inside
      | true =>
          change (0#32).getLsbD bit = false
          exact BitVec.getLsbD_zero
  | some named =>
      have affects : AffectsBit (some named) bit ↔ bit + 1 = named.value := by
        simp [AffectsBit]
      have position := permBit_getLsbD (fits named rfl).1 inside
      have notAll : ¬(named.value : Int) < 0 := by omega
      rw [affects]
      cases not with
      | false =>
          simp only [editVector, permArg, Bool.false_eq_true, if_false, notAll,
            BitVec.getLsbD_or, position]
          constructor
          · intro here
            simp [here]
          · intro other
            simp [other]
      | true =>
          simp only [editVector, permArg, if_true, notAll, if_false, BitVec.getLsbD_and,
            BitVec.getLsbD_not, position]
          constructor
          · intro here
            simp [here]
          · intro other
            simp [other, inside]

/-! ## Runs over many keys -/

def editKeys (initial : AvtabDatum) (change : AvtabDatum → AvtabDatum)
    (keys : List AvtabKey) (h : Avtab) : Avtab :=
  keys.foldl (fun h key => h.upsert key initial change) h

/-- On every table, `run` succeeds, edits `keys` and leaves the rest of the
database alone. -/
def EditsKeys (db : Policydb) (initial : AvtabDatum) (change : AvtabDatum → AvtabDatum)
    (run : Policydb → Policydb × Nat) (keys : List AvtabKey) : Prop :=
  ∀ teAvtab, run { db with teAvtab } =
    ({ db with teAvtab := editKeys initial change keys teAvtab }, 0)

def upsertRule (db : Policydb) (key : AvtabKey) (initial : AvtabDatum)
    (change : AvtabDatum → AvtabDatum) : Policydb × Nat :=
  match avtabSearch db.teAvtab key with
  | none =>
      match avtabInsert db.teAvtab key (change initial) with
      | none => (db, 1)
      | some teAvtab => ({ db with teAvtab }, 0)
  | some _ => ({ db with teAvtab := avtabModify db.teAvtab key change }, 0)

theorem editsKeys_upsertRule (db : Policydb) (key : AvtabKey) (initial : AvtabDatum)
    (change : AvtabDatum → AvtabDatum) :
    EditsKeys db initial change (fun db => upsertRule db key initial change) [key] := by
  intro teAvtab
  have upserts := teAvtab.upsert_eq_search key initial change
  simp only [upsertRule, editKeys, List.foldl_cons, List.foldl_nil]
  cases searched : avtabSearch teAvtab key with
  | none =>
      simp only [searched] at upserts
      simp only [upserts]
  | some datum =>
      simp only [searched, Option.some.injEq] at upserts
      simp only [upserts]

theorem editsKeys_addRule (db : Policydb) (s t c : Nat) (p : Int)
    (effect : AvtabSpecified) (not : Bool) :
    EditsKeys db { data := 0 } (editDatum p not)
      (fun db => __addRule db s t c p effect not) [ruleKey s t c effect] :=
  editsKeys_upsertRule db (ruleKey s t c effect) { data := 0 } (editDatum p not)

theorem editsKeys_hashtabForEach {db : Policydb} {initial : AvtabDatum}
    {change : AvtabDatum → AvtabDatum}
    {table : Hashtab Datum} {body : Policydb → Datum → Policydb × Nat}
    {keys : Datum → List AvtabKey}
    (edits : ∀ datum, EditsKeys db initial change (fun db => body db datum) (keys datum)) :
    EditsKeys db initial change (hashtabForEach table body) (table.data.flatMap keys) := by
  intro teAvtab
  rw [hashtabForEach]
  generalize table.data = visited
  induction visited generalizing teAvtab with
  | nil => rfl
  | cons datum rest induction =>
      have first := edits datum teAvtab
      simp only [List.foldl_cons, first, Nat.zero_or, List.flatMap_cons]
      rw [induction (editKeys initial change (keys datum) teAvtab)]
      simp [editKeys, List.foldl_append]

theorem flatMap_expanded_some (table : Hashtab Datum) (datum : Datum)
    (row : Datum → List AvtabKey) :
    (expanded table (some datum)).flatMap row = row datum :=
  List.flatMap_singleton row datum

section Auto

variable {db : Policydb} {initial : AvtabDatum} {change : AvtabDatum → AvtabDatum}
  {effect : AvtabSpecified} {wild named : Policydb → Nat → Nat → Nat → Policydb × Nat}
  {cls : Option ClassDatum}
  (wildEdits : cls = none → ∀ s t c,
    EditsKeys db initial change (fun db => wild db s t c) [ruleKey s t c effect])
  (namedEdits : ∀ s t c,
    EditsKeys db initial change (fun db => named db s t c) [ruleKey s t c effect])

include wildEdits namedEdits

theorem editsKeys_ruleAutoClass (src tgt : TypeDatum) :
    EditsKeys db initial change (fun db => ruleAutoClass wild named cls db src tgt)
      ((expanded db.pClasses cls).map fun cls =>
        ruleKey src.value tgt.value cls.value effect) := by
  cases cls with
  | none =>
      rw [show (expanded db.pClasses none).map _ =
        db.pClasses.data.flatMap fun cls =>
          [ruleKey src.value tgt.value cls.value effect] from
        (List.flatMap_pure_eq_map _ _).symm]
      exact editsKeys_hashtabForEach fun cls => wildEdits rfl _ _ _
  | some cls => exact namedEdits _ _ _

theorem editsKeys_ruleAutoTarget (tgt : Option TypeDatum) (src : TypeDatum) :
    EditsKeys db initial change (fun db => ruleAutoTarget wild named tgt cls db src)
      ((expanded db.pTypes tgt).flatMap fun tgt =>
        (expanded db.pClasses cls).map fun cls =>
          ruleKey src.value tgt.value cls.value effect) := by
  cases tgt with
  | none =>
      exact editsKeys_hashtabForEach fun tgt =>
        editsKeys_ruleAutoClass wildEdits namedEdits src tgt
  | some tgt =>
      rw [flatMap_expanded_some]
      exact editsKeys_ruleAutoClass wildEdits namedEdits src tgt

theorem editsKeys_ruleAuto (src tgt : Option TypeDatum) :
    EditsKeys db initial change (ruleAuto wild named src tgt cls)
      (ruleKeys effect (expanded db.pTypes src) (expanded db.pTypes tgt)
        (expanded db.pClasses cls)) := by
  cases src with
  | none =>
      exact editsKeys_hashtabForEach fun src =>
        editsKeys_ruleAutoTarget wildEdits namedEdits tgt src
  | some src =>
      rw [ruleKeys, flatMap_expanded_some]
      exact editsKeys_ruleAutoTarget wildEdits namedEdits tgt src

end Auto

/-- Without a class there is no permission either, so every key gets the same
edit. -/
theorem editsKeys_addRuleAuto (db : Policydb) (src tgt : Option TypeDatum)
    (cls : Option ClassDatum) (perm : Option PermDatum)
    (noClassNoPerm : cls = none → perm = none) (effect : AvtabSpecified) (not : Bool) :
    EditsKeys db { data := 0 } (editDatum (permArg perm) not)
      (addRuleAuto src tgt cls perm effect not)
      (ruleKeys effect (expanded db.pTypes src) (expanded db.pTypes tgt)
        (expanded db.pClasses cls)) := by
  apply editsKeys_ruleAuto
  · intro noClass s t c
    rcases noClassNoPerm noClass with rfl
    exact editsKeys_addRule db s t c _ effect not
  · intro s t c
    cases perm with
    | none => exact editsKeys_addRule db s t c _ effect not
    | some perm => exact editsKeys_addRule db s t c _ effect not

def RuleSymbols.keys (symbols : RuleSymbols) (db : Policydb) (effect : AvtabSpecified) :
    List AvtabKey :=
  ruleKeys effect (expanded db.pTypes symbols.src) (expanded db.pTypes symbols.tgt)
    (expanded db.pClasses symbols.cls)

/-! ## Lookups -/

theorem mem_of_mem_matched {table : Hashtab Datum} {name : Option CString} {datum : Datum}
    (member : datum ∈ matched table name) : datum ∈ table.data := by
  cases name with
  | none => exact member
  | some name => exact mem_data_of_hashtabSearch (by simpa [matched] using member)

theorem matched_of_lookupName {table : Hashtab Datum} {missing : CString → RuleError}
    {name : Option CString} {found : Option Datum}
    (looked : lookupName table missing name = .ok found) :
    matched table name = expanded table found := by
  cases name with
  | none =>
      cases looked
      rfl
  | some name =>
      rw [lookupName] at looked
      split at looked
      · cases looked
      · rename_i datum searched
        cases looked
        simp [matched, expanded, searched]

theorem expanded_subset {table : Hashtab Datum} {missing : CString → RuleError}
    {name : Option CString} {found : Option Datum}
    (looked : lookupName table missing name = .ok found) :
    ∀ datum, datum ∈ expanded table found → datum ∈ table.data := by
  intro datum member
  rw [← matched_of_lookupName looked] at member
  exact mem_of_mem_matched member

theorem ruleSymbols_ok {db : Policydb} {s t c p : Option CString} {symbols : RuleSymbols}
    (found : ruleSymbols db s t c p = .ok symbols) :
    lookupName db.pTypes .sourceType s = .ok symbols.src ∧
      lookupName db.pTypes .targetType t = .ok symbols.tgt ∧
      lookupName db.pClasses .cls c = .ok symbols.cls ∧
      lookupPerm c symbols.cls p = .ok symbols.perm := by
  rw [ruleSymbols] at found
  cases src : lookupName db.pTypes .sourceType s with
  | error _ => simp [src, bind, Except.bind] at found
  | ok srcFound =>
      cases tgt : lookupName db.pTypes .targetType t with
      | error _ => simp [src, tgt, bind, Except.bind] at found
      | ok tgtFound =>
          cases cls : lookupName db.pClasses .cls c with
          | error _ => simp [src, tgt, cls, bind, Except.bind] at found
          | ok clsFound =>
              cases perm : lookupPerm c clsFound p with
              | error _ => simp [src, tgt, cls, perm, bind, Except.bind] at found
              | ok permFound =>
                  simp [src, tgt, cls, perm, bind, Except.bind, pure, Except.pure] at found
                  subst found
                  exact ⟨rfl, rfl, rfl, perm⟩

theorem perm_none_of_class_none {db : Policydb} {s t c p : Option CString}
    {symbols : RuleSymbols} (found : ruleSymbols db s t c p = .ok symbols)
    (noClass : symbols.cls = none) : symbols.perm = none := by
  rcases ruleSymbols_ok found with ⟨-, -, clsFound, permFound⟩
  cases p with
  | none => simpa [lookupPerm, eq_comm] using permFound
  | some p =>
      cases c with
      | none => simp [lookupPerm] at permFound
      | some c =>
          rw [noClass, lookupName] at clsFound
          split at clsFound
          · cases clsFound
          · cases clsFound

theorem classPerm_of_perm {db : Policydb} {s t c p : Option CString} {symbols : RuleSymbols}
    (found : ruleSymbols db s t c p = .ok symbols) {named : PermDatum}
    (isNamed : symbols.perm = some named) :
    ∃ cls name, symbols.cls = some cls ∧ cls ∈ db.pClasses.data ∧ p = some name ∧
      classPerm cls name = some named := by
  rcases ruleSymbols_ok found with ⟨-, -, clsFound, permFound⟩
  rw [isNamed] at permFound
  cases p with
  | none => cases permFound
  | some p =>
      cases c with
      | none => simp [lookupPerm] at permFound
      | some c =>
          cases classFound : symbols.cls with
          | none => simp [lookupPerm, classFound] at permFound
          | some cls =>
              have classMember : cls ∈ db.pClasses.data :=
                expanded_subset clsFound cls (by simp [classFound, expanded])
              simp only [lookupPerm, classFound] at permFound
              split at permFound
              · cases permFound
              · rename_i perm searched
                cases permFound
                exact ⟨cls, p, rfl, classMember, rfl, searched⟩

theorem perm_fits {db : Policydb} (fit : db.ValuesFit) {s t c p : Option CString}
    {symbols : RuleSymbols} (found : ruleSymbols db s t c p = .ok symbols)
    (named : PermDatum) (isNamed : symbols.perm = some named) :
    1 ≤ named.value ∧ named.value ≤ 32 := by
  rcases classPerm_of_perm found isNamed with ⟨cls, name, -, classMember, -, searched⟩
  rcases classPerm_eq_some_iff.mp searched with own | ⟨-, common, isCommon, inherited⟩
  · exact fit.perms cls classMember _ (List.mem_map.mpr ⟨_, own, rfl⟩)
  · exact fit.commons cls classMember common isCommon _ (List.mem_map.mpr ⟨_, inherited, rfl⟩)

theorem affectsBit_iff_namesBit {db : Policydb} {s t c p : Option CString}
    {symbols : RuleSymbols} (found : ruleSymbols db s t c p = .ok symbols) (bit : Nat) :
    AffectsBit symbols.perm bit ↔ NamesBit db c p bit := by
  rcases ruleSymbols_ok found with ⟨-, -, clsFound, permFound⟩
  cases p with
  | none =>
      rw [lookupPerm, Except.ok.injEq] at permFound
      simp [AffectsBit, NamesBit, ← permFound]
  | some permName =>
      cases c with
      | none => simp [lookupPerm] at permFound
      | some className =>
          cases searched : hashtabSearch db.pClasses className with
          | none => simp [lookupName, searched] at clsFound
          | some cls =>
              simp only [lookupName, searched, Except.ok.injEq] at clsFound
              rw [← clsFound, lookupPerm] at permFound
              cases named : classPerm cls permName with
              | none => simp [named] at permFound
              | some perm =>
                  simp only [named, Except.ok.injEq] at permFound
                  simp [AffectsBit, NamesBit, ← permFound, ← hashtabSearch_eq_some_iff,
                    ← classPerm_eq_some_iff, searched, named]

theorem ofNat_eq_iff_toNat {value : Nat} (fits : value < 2 ^ 16) (field : UInt16) :
    UInt16.ofNat value = field ↔ value = field.toNat := by
  rw [← UInt16.toNat_inj, UInt16.toNat_ofNat_of_lt' fits]

theorem mem_ruleKeys_iff {db : Policydb} (fit : db.ValuesFit) {s t c p : Option CString}
    {symbols : RuleSymbols} (found : ruleSymbols db s t c p = .ok symbols)
    (effect : AvtabSpecified) (key : AvtabKey) :
    key ∈ symbols.keys db effect ↔ MatchesRule db s t c effect key := by
  rcases ruleSymbols_ok found with ⟨srcFound, tgtFound, clsFound, -⟩
  have srcs := matched_of_lookupName srcFound
  have tgts := matched_of_lookupName tgtFound
  have clss := matched_of_lookupName clsFound
  have srcFits := fun src member => fit.types src (expanded_subset srcFound src member)
  have tgtFits := fun tgt member => fit.types tgt (expanded_subset tgtFound tgt member)
  have clsFits := fun cls member => fit.classes cls (expanded_subset clsFound cls member)
  simp only [RuleSymbols.keys, ruleKeys, List.mem_flatMap, List.mem_map]
  constructor
  · rintro ⟨src, srcMember, tgt, tgtMember, cls, clsMember, rfl⟩
    exact
      { specified := rfl
        source := ⟨src, srcs ▸ srcMember,
          (ofNat_eq_iff_toNat (srcFits src srcMember) _).mp rfl⟩
        target := ⟨tgt, tgts ▸ tgtMember,
          (ofNat_eq_iff_toNat (tgtFits tgt tgtMember) _).mp rfl⟩
        targetClass := ⟨cls, clss ▸ clsMember,
          (ofNat_eq_iff_toNat (clsFits cls clsMember) _).mp rfl⟩ }
  · rintro ⟨rfl, ⟨src, srcMember, srcValue⟩, ⟨tgt, tgtMember, tgtValue⟩,
      ⟨cls, clsMember, clsValue⟩⟩
    rw [srcs] at srcMember
    rw [tgts] at tgtMember
    rw [clss] at clsMember
    refine ⟨src, srcMember, tgt, tgtMember, cls, clsMember, ?_⟩
    rw [ruleKey, (ofNat_eq_iff_toNat (srcFits src srcMember) _).mpr srcValue,
      (ofNat_eq_iff_toNat (tgtFits tgt tgtMember) _).mpr tgtValue,
      (ofNat_eq_iff_toNat (clsFits cls clsMember) _).mpr clsValue]

/-! ## The statement -/

theorem addRule_eq_editKeys {db : Policydb} {s t c p : Option CString}
    {symbols : RuleSymbols} (found : ruleSymbols db s t c p = .ok symbols)
    (effect : AvtabSpecified) (not : Bool) :
    addRule db s t c p effect not =
      ({ db with
          teAvtab := editKeys { data := 0 } (editDatum (permArg symbols.perm) not)
            (symbols.keys db effect) db.teAvtab }, 0) := by
  rw [addRule, found]
  exact editsKeys_addRuleAuto db symbols.src symbols.tgt symbols.cls symbols.perm
    (perm_none_of_class_none found) effect not db.teAvtab

theorem addRule_unresolved {db : Policydb} {s t c p : Option CString} {error : RuleError}
    (missing : ruleSymbols db s t c p = .error error) (effect : AvtabSpecified)
    (not : Bool) : addRule db s t c p effect not = (db, 1) := by
  rw [addRule, missing]

theorem data_editKeys (perm : Option PermDatum) (not : Bool) (keys : List AvtabKey)
    (h : Avtab) (key : AvtabKey) :
    (editKeys { data := 0 } (editDatum (permArg perm) not) keys h).data key =
      if key ∈ keys then
        editDatum (permArg perm) not ((h.data key).headD { data := 0 }) ::
          (h.data key).tail
      else h.data key :=
  Avtab.data_foldl_upsert keys _ _ (editDatum_idempotent _ _) h key

theorem headD_data_eq_storedVector (h : Avtab) (key : AvtabKey) :
    ((h.data key).headD { data := 0 }).data = storedVector h key := by
  rw [storedVector, Avtab.search_eq_head?]
  cases h.data key with
  | nil => rfl
  | cons datum rest => rfl

theorem storedVector_editKeys (perm : Option PermDatum) (not : Bool)
    (keys : List AvtabKey) (h : Avtab) (key : AvtabKey) :
    storedVector (editKeys { data := 0 } (editDatum (permArg perm) not) keys h) key =
      if key ∈ keys then editVector (permArg perm) not (storedVector h key)
      else storedVector h key := by
  rw [← headD_data_eq_storedVector, data_editKeys, ← headD_data_eq_storedVector]
  by_cases visited : key ∈ keys
  · simp [visited, editDatum]
  · simp [visited]

theorem addRule_bit {db : Policydb} (fit : db.ValuesFit) {s t c p : Option CString}
    {symbols : RuleSymbols} (found : ruleSymbols db s t c p = .ok symbols)
    (effect : AvtabSpecified) (not : Bool) (key : AvtabKey) (bit : Nat)
    (inside : bit < 32) :
    (MatchesRule db s t c effect key ∧ AffectsBit symbols.perm bit →
      (storedVector (addRule db s t c p effect not).1.teAvtab key).getLsbD bit = !not) ∧
    (¬(MatchesRule db s t c effect key ∧ AffectsBit symbols.perm bit) →
      (storedVector (addRule db s t c p effect not).1.teAvtab key).getLsbD bit =
        (storedVector db.teAvtab key).getLsbD bit) := by
  have edited := editVector_bit symbols.perm not (storedVector db.teAvtab key)
    (perm_fits fit found) bit inside
  rw [addRule_eq_editKeys found, ← mem_ruleKeys_iff fit found, storedVector_editKeys]
  by_cases visited : key ∈ symbols.keys db effect
  · simpa [visited] using edited
  · simp [visited]

/-- A rule statement whose names resolve succeeds; at every key it is about it
sets or clears exactly the bits it is about, and every other key keeps its
data. -/
theorem addRule_edits_exactly (db : Policydb) (fit : db.ValuesFit) (effect : AvtabSpecified)
    (isAv : effect.isAv = true) (not : Bool) (s t c p : Option CString)
    (symbols : RuleSymbols) (found : ruleSymbols db s t c p = .ok symbols) :
    ∃ teAvtab, addRule db s t c p effect not = ({ db with teAvtab }, 0) ∧
      (∀ key, MatchesRule db s t c effect key →
        ∃ datum, teAvtab.data key = [datum] ∧ ∀ bit, bit < 32 →
          (NamesBit db c p bit → datum.data.getLsbD bit = !not) ∧
          (¬NamesBit db c p bit →
            datum.data.getLsbD bit = (storedVector db.teAvtab key).getLsbD bit)) ∧
      ∀ key, ¬MatchesRule db s t c effect key →
        teAvtab.data key = db.teAvtab.data key := by
  refine ⟨_, addRule_eq_editKeys found effect not, ?_, ?_⟩
  · intro key isMatch
    have plain : key.specified.isXperms = false := by
      rw [isMatch.specified]
      cases effect <;> simp_all [AvtabSpecified.isAv, AvtabSpecified.isXperms]
    have atMostOne := db.teAvtab.length_data_le_one key plain
    have noTail : (db.teAvtab.data key).tail = [] := by
      apply List.eq_nil_of_length_eq_zero
      rw [List.length_tail]
      omega
    rw [data_editKeys, if_pos ((mem_ruleKeys_iff fit found effect key).mpr isMatch), noTail]
    refine ⟨_, rfl, fun bit inside => ?_⟩
    rw [← headD_data_eq_storedVector, ← affectsBit_iff_namesBit found]
    exact editVector_bit symbols.perm not _ (perm_fits fit found) bit inside
  · intro key noMatch
    rw [data_editKeys, if_neg (mt (mem_ruleKeys_iff fit found effect key).mp noMatch)]

def auditedTable : Avtab :=
  (Avtab.empty 0).upsert (ruleKey 1 1 1 .auditallow) { data := 0 } fun _ => { data := 1 }

/-- `allow shell * file read`, which leaves the other rule alone. -/
theorem addRule_edits_shell_file_read :
    ∃ teAvtab, addRule (shellPolicydb auditedTable).toPolicydb (some (ascii "shell")) none
        (some (ascii "file")) (some (ascii "read")) .allowed false =
        ({ (shellPolicydb auditedTable).toPolicydb with teAvtab }, 0) ∧
      (∃ datum, teAvtab.data (ruleKey 1 2 1 .allowed) = [datum] ∧
        datum.data.getLsbD 0 = true ∧ datum.data.getLsbD 1 = false) ∧
      teAvtab.data (ruleKey 2 1 1 .allowed) = [] ∧
      teAvtab.data (ruleKey 1 1 1 .auditallow) = [{ data := 1 }] := by
  have found : ruleSymbols (shellPolicydb auditedTable).toPolicydb (some (ascii "shell")) none
      (some (ascii "file")) (some (ascii "read")) = .ok
        { src := some { value := 1 }
          tgt := none
          cls := some
            { value := 1
              permissions := Hashtab.single (ascii "read") { value := 1 }
              comdatum := none }
          perm := some { value := 1 } } := rfl
  have names : ∀ bit, NamesBit (shellPolicydb auditedTable).toPolicydb (some (ascii "file"))
      (some (ascii "read")) bit ↔ bit = 0 := by
    intro bit
    rw [← affectsBit_iff_namesBit found]
    simp [AffectsBit]
  rcases addRule_edits_exactly (shellPolicydb auditedTable).toPolicydb
      (shellPolicydb auditedTable).fit .allowed rfl false
      (some (ascii "shell")) none (some (ascii "file")) (some (ascii "read")) _ found with
    ⟨teAvtab, succeeds, edited, kept⟩
  refine ⟨teAvtab, succeeds, ?_, ?_, ?_⟩
  · rcases edited (ruleKey 1 2 1 .allowed)
        { specified := rfl
          source := ⟨{ value := 1 }, by decide, rfl⟩
          target := ⟨{ value := 2 }, by decide, rfl⟩
          targetClass := ⟨_, List.mem_singleton.mpr rfl, rfl⟩ } with
      ⟨datum, stored, bits⟩
    refine ⟨datum, stored, (bits 0 (by decide)).1 ((names 0).mpr rfl), ?_⟩
    rw [(bits 1 (by decide)).2 (mt (names 1).mp Nat.one_ne_zero)]
    rfl
  · refine kept (ruleKey 2 1 1 .allowed) fun isMatch => ?_
    rcases isMatch.source with ⟨src, member, value⟩
    obtain rfl : src = { value := 1 } := by
      simpa [matched, hashtabSearch, shellPolicydb] using member
    exact absurd value (by decide)
  · exact kept (ruleKey 1 1 1 .auditallow) fun isMatch => nomatch isMatch.specified

end SuBinary.Magiskpolicy
