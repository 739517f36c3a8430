import SuBinary.Magiskpolicy.OperationEffect
import SuBinary.Magiskpolicy.Rules

/-! # The order of granting statements

`allow`, `auditallow`, `auditdeny`, `attradd` and `permissive` only add: rules
and their bits, bits of the maps and bits of the names in constraints. What a
call adds is given by the tables of symbols, which none of them changes, so a
run depends on the set of its calls alone.
-/

namespace SuBinary.Magiskpolicy

open SuBinary Sepol

/-! ## What granting statements write -/

/-- `classes` holds the names of the constraints. -/
structure Granted where
  rules : AvtabKey → List AvtabDatum
  permissiveMap : Ebitmap
  typeAttrMap : List Ebitmap
  attrTypeMap : List Ebitmap
  classes : Hashtab ClassSymbol

def granted (p : Policy) : Granted where
  rules := p.teAvtab.data
  permissiveMap := p.permissiveMap
  typeAttrMap := p.typeAttrMap
  attrTypeMap := p.attrTypeMap
  classes := p.pClasses.table

/-- What a call adds: masks to the access vectors, bits to `permissive_map`, a
type and an attribute to the attribute maps, and to the constraints that name an
attribute the type. -/
structure Additions where
  masks : AvtabKey → List (BitVec 32) := fun _ => []
  permissives : List Nat := []
  attrs : List (Nat × Nat) := []
  names : List (Nat × Nat) := []

def addMask (data : List AvtabDatum) (mask : BitVec 32) : List AvtabDatum :=
  { data.headD { data := 0 } with data := (data.headD { data := 0 }).data ||| mask } :: data.tail

def addPermissive (e : Ebitmap) (bit : Nat) : Ebitmap :=
  ebitmapSetBit e bit true

/-- The first number is the row. -/
def addRowBit (rows : List Ebitmap) (place : Nat × Nat) : List Ebitmap :=
  setRowBit rows place.1 place.2

/-- The first number is the bit of the attribute, the second that of the type;
`pointed` are the classes that are visited. -/
def addName (pointed : CString → Bool) (table : Hashtab ClassSymbol) (bits : Nat × Nat) :
    Hashtab ClassSymbol :=
  table.mapEntries fun key cls =>
    if pointed key then updateConstraints bits.1 bits.2 cls else cls

def Granted.add (pointed : CString → Bool) (state : Granted) (additions : Additions) : Granted where
  rules := fun key => (additions.masks key).foldl addMask (state.rules key)
  permissiveMap := additions.permissives.foldl addPermissive state.permissiveMap
  typeAttrMap := additions.attrs.foldl addRowBit state.typeAttrMap
  attrTypeMap := (additions.attrs.map Prod.swap).foldl addRowBit state.attrTypeMap
  classes := additions.names.foldl (addName pointed) state.classes

/-! ## Order and repetition -/

theorem accumulates_addMask : Accumulates addMask where
  commutes data first second := by
    simp only [addMask, List.headD_cons, List.tail_cons, BitVec.or_assoc]
    rw [BitVec.or_comm first second]
  idempotent data mask := by
    simp only [addMask, List.headD_cons, List.tail_cons, BitVec.or_assoc, BitVec.or_self]

theorem accumulates_addPermissive : Accumulates addPermissive where
  commutes e first second := by
    apply Ebitmap.ext_mem
    intro bit
    simp only [addPermissive, mem_ebitmapSetBit_true]
    tauto
  idempotent e bit := by
    apply Ebitmap.ext_mem
    intro other
    simp only [addPermissive, mem_ebitmapSetBit_true]
    tauto

theorem accumulates_addRowBit : Accumulates addRowBit where
  commutes rows first second := by
    apply rows_ext
    · simp [addRowBit]
    · intro row bit
      simp only [addRowBit, hasRowBit_setRowBit, length_setRowBit]
      tauto
  idempotent rows place := by
    apply rows_ext
    · simp [addRowBit]
    · intro row bit
      simp only [addRowBit, hasRowBit_setRowBit, length_setRowBit]
      tauto

theorem updateExpr_comm (first second : Nat × Nat) (e : ConstraintExpr) :
    updateExpr second.1 second.2 (updateExpr first.1 first.2 e) =
      updateExpr first.1 first.2 (updateExpr second.1 second.2 e) := by
  have swapped := accumulates_addPermissive.commutes e.names first.2 second.2
  simp only [addPermissive] at swapped
  unfold updateExpr
  by_cases byFirst : e.exprType = .names ∧ ebitmapGetBit e.typeNames first.1 = true
  · by_cases bySecond : e.exprType = .names ∧ ebitmapGetBit e.typeNames second.1 = true
    · simp [byFirst, bySecond, swapped]
    · rw [if_pos byFirst, if_neg bySecond, if_neg bySecond, if_pos byFirst]
  · by_cases bySecond : e.exprType = .names ∧ ebitmapGetBit e.typeNames second.1 = true
    · rw [if_neg byFirst, if_pos bySecond, if_neg byFirst]
    · rw [if_neg byFirst, if_neg bySecond, if_neg byFirst]

theorem updateConstraints_comm (first second : Nat × Nat) (cls : ClassSymbol) :
    updateConstraints second.1 second.2 (updateConstraints first.1 first.2 cls) =
      updateConstraints first.1 first.2 (updateConstraints second.1 second.2 cls) := by
  simp [updateConstraints, updateExpr_comm first second]

theorem accumulates_addName (pointed : CString → Bool) : Accumulates (addName pointed) where
  commutes table first second := by
    simp only [addName, Hashtab.mapEntries, List.map_map, Hashtab.mk.injEq]
    apply List.map_congr_left
    intro entry member
    by_cases visited : pointed entry.1 = true
    · simp [visited, updateConstraints_comm first second]
    · simp [visited]
  idempotent table bits := by
    simp only [addName, Hashtab.mapEntries, List.map_map, Hashtab.mk.injEq]
    apply List.map_congr_left
    intro entry member
    by_cases visited : pointed entry.1 = true
    · simp [visited, updateConstraints_idempotent]
    · simp [visited]

theorem accumulates_add (pointed : CString → Bool) : Accumulates (Granted.add pointed) where
  commutes state first second := by
    simp only [Granted.add, Granted.mk.injEq]
    refine ⟨?_, ?_, ?_, ?_, ?_⟩
    · funext key
      exact accumulates_addMask.lists.commutes _ _ _
    · exact accumulates_addPermissive.lists.commutes _ _ _
    · exact accumulates_addRowBit.lists.commutes _ _ _
    · exact accumulates_addRowBit.lists.commutes _ _ _
    · exact (accumulates_addName pointed).lists.commutes _ _ _
  idempotent state additions := by
    simp only [Granted.add, Granted.mk.injEq]
    refine ⟨?_, ?_, ?_, ?_, ?_⟩
    · funext key
      exact accumulates_addMask.lists.idempotent _ _
    · exact accumulates_addPermissive.lists.idempotent _ _
    · exact accumulates_addRowBit.lists.idempotent _ _
    · exact accumulates_addRowBit.lists.idempotent _ _
    · exact (accumulates_addName pointed).lists.idempotent _ _

/-! ## What each call adds -/

def GrantingCall : PolicyCall → Prop
  | .rule action _ _ _ _ => action ≠ .deny
  | .attradd _ _ => True
  | .typeState .permissive _ => True
  | _ => False

def permMask (perm : Option PermDatum) : BitVec 32 :=
  editVector (permArg perm) false 0

def ruleMasks (db : Policydb) (s t c p : Option CString) (effect : AvtabSpecified)
    (key : AvtabKey) : List (BitVec 32) :=
  match ruleSymbols db s t c p with
  | .error _ => []
  | .ok symbols => if key ∈ symbols.keys db effect then [permMask symbols.perm] else []

/-- An unknown attribute enters no map, but the constraints that name the first
attribute still get the type. -/
def attrAdditions (p : Policy) (s a : CString) : Additions :=
  match hashtabSearch p.pTypes.table s with
  | none => {}
  | some domain =>
      { attrs := (attrValue p a).toList.map fun attr => (domain.value - 1, attr - 1)
        names := [(getAttrId p a - 1, domain.value - 1)] }

def additions (p : Policy) : PolicyCall → Additions
  | .rule action s t c perm =>
      { masks := ruleMasks p.toPolicydb s t c perm action.effect.1 }
  | .attradd (some s) (some a) => attrAdditions p s a
  | .typeState .permissive s =>
      { permissives := (matched p.pTypes.table s).map fun type => type.value }
  | _ => {}

/-- `attradd` does not survive a wildcard, nor a class number without class. -/
def Crashes (p : Policy) : PolicyCall → Prop
  | .attradd none _ => True
  | .attradd (some s) a => hashtabSearch p.pTypes.table s ≠ none ∧
      (a = none ∨ ¬AllPoint p.classValToStruct p.pClasses.nprim)
  | _ => False

def visitedClass (p : Policy) (name : CString) : Bool :=
  pointsTo p.classValToStruct p.pClasses.nprim name

theorem editDatum_eq_or (perm : Option PermDatum) (datum : AvtabDatum) :
    editDatum (permArg perm) false datum = { datum with data := datum.data ||| permMask perm } := by
  have full : datum.data ||| BitVec.allOnes 32 = BitVec.allOnes 32 := BitVec.or_allOnes
  unfold editDatum permMask editVector
  by_cases all : permArg perm < 0
  · simp only [all, Bool.false_eq_true, if_false, if_true, full]
  · simp [all]

theorem data_addRule_masks (db : Policydb) (s t c p : Option CString) (effect : AvtabSpecified)
    (key : AvtabKey) :
    (addRule db s t c p effect false).1.teAvtab.data key =
      (ruleMasks db s t c p effect key).foldl addMask (db.teAvtab.data key) := by
  rw [ruleMasks]
  cases found : ruleSymbols db s t c p with
  | error error =>
      rw [addRule_unresolved found]
      rfl
  | ok symbols =>
      rw [addRule_eq_editKeys found, data_editKeys]
      by_cases visited : key ∈ symbols.keys db effect
      · simp [visited, editDatum_eq_or, addMask]
      · simp [visited]

structure SameSymbols (p next : Policy) : Prop where
  types : next.pTypes = p.pTypes
  classes : next.toPolicydb.pClasses = p.toPolicydb.pClasses
  pointers : next.classValToStruct = p.classValToStruct
  nprim : next.pClasses.nprim = p.pClasses.nprim

theorem toPolicydb_addName (pointed : CString → Bool) (table : Hashtab ClassSymbol)
    (bits : Nat × Nat) :
    (addName pointed table bits).mapEntries (fun _ cls => cls.toClassDatum) =
      table.mapEntries fun _ cls => cls.toClassDatum := by
  simp only [addName, Hashtab.mapEntries, List.map_map, Hashtab.mk.injEq]
  apply List.map_congr_left
  intro entry member
  by_cases visited : pointed entry.1 = true
  · simp [visited, updateConstraints]
  · simp [visited]

theorem addTypeattribute_adds {p : Policy}
    (allPoint : AllPoint p.classValToStruct p.pClasses.nprim) (s a : CString) :
    ∃ next result, addTypeattribute p (some s) (some a) = some (next, result) ∧
      SameSymbols p next ∧
      granted next = (granted p).add (visitedClass p) (attrAdditions p s a) := by
  rw [attrAdditions]
  cases found : hashtabSearch p.pTypes.table s with
  | none =>
      exact ⟨p, 1, addTypeattribute_missing found (some a), ⟨rfl, rfl, rfl, rfl⟩, rfl⟩
  | some domain =>
      rw [addTypeattribute_found found, modifyPointed_eq allPoint _
        (updateConstraints_idempotent _ _), setAttr_eq]
      have sameClasses := toPolicydb_addName (visitedClass p) p.pClasses.table
        (getAttrId p a - 1, domain.value - 1)
      cases attrValue p a with
      | none => exact ⟨_, 0, rfl, ⟨rfl, sameClasses, rfl, rfl⟩, rfl⟩
      | some attr => exact ⟨_, 0, rfl, ⟨rfl, sameClasses, rfl, rfl⟩, rfl⟩

theorem setDomainState_adds (p : Policy) (s : Option CString) :
    (setDomainState p s true).1 =
      { p with
        permissiveMap := ((matched p.pTypes.table s).map fun type => type.value).foldl
          addPermissive p.permissiveMap } := by
  rw [List.foldl_map]
  cases s with
  | none => rfl
  | some s =>
      simp only [setDomainState, findSymbol, matched]
      cases hashtabSearch p.pTypes.table s with
      | none => rfl
      | some type => rfl

theorem perform_adds (p : Policy) {invocation : Invocation} (grants : GrantingCall invocation.call)
    (survives : ¬Crashes p invocation.call) :
    ∃ next, perform invocation p = some next ∧ SameSymbols p next ∧
      granted next = (granted p).add (visitedClass p) (additions p invocation.call) := by
  rcases invocation with ⟨call, stale⟩
  cases call with
  | rule action s t c perm =>
      have adds : action.effect.2 = false := by
        cases action with
        | deny => exact absurd rfl grants
        | allow => rfl
        | auditallow => rfl
        | auditdeny => rfl
      refine ⟨_, rfl, ⟨rfl, rfl, rfl, rfl⟩, ?_⟩
      simp only [granted, Granted.add, additions, onRules_eq, adds, List.foldl_nil, List.map_nil,
        Granted.mk.injEq, and_self, and_true]
      funext key
      exact data_addRule_masks p.toPolicydb s t c perm action.effect.1 key
  | xperm action s t c range => cases grants
  | attradd s a =>
      cases s with
      | none => exact absurd trivial survives
      | some s =>
          cases found : hashtabSearch p.pTypes.table s with
          | none =>
              refine ⟨p, ?_, ⟨rfl, rfl, rfl, rfl⟩, ?_⟩
              · simp [perform, execute, addTypeattribute_missing found]
              · cases a with
                | none => rfl
                | some a =>
                    simp only [additions, attrAdditions, found]
                    rfl
          | some domain =>
              have known : hashtabSearch p.pTypes.table s ≠ none := by simp [found]
              cases a with
              | none => exact absurd ⟨known, Or.inl rfl⟩ survives
              | some a =>
                  have allPoint : AllPoint p.classValToStruct p.pClasses.nprim := by
                    by_contra nullPointer
                    exact survives ⟨known, Or.inr nullPointer⟩
                  rcases addTypeattribute_adds allPoint s a with ⟨next, result, ran, same, added⟩
                  exact ⟨next, by simp [perform, execute, ran], same, added⟩
  | typeState action s =>
      cases action with
      | create => cases grants
      | enforce => cases grants
      | permissive =>
          refine ⟨(setDomainState p s true).1, rfl, ?_, ?_⟩
          · rw [setDomainState_adds]
            exact ⟨rfl, rfl, rfl, rfl⟩
          · rw [setDomainState_adds]
            rfl
  | typetrans s t c d o => cases grants

theorem perform_crashes {p : Policy} {invocation : Invocation}
    (crashes : Crashes p invocation.call) : perform invocation p = none := by
  rcases invocation with ⟨call, stale⟩
  cases call with
  | rule action s t c perm => cases crashes
  | xperm action s t c range => cases crashes
  | typeState action s => cases crashes
  | typetrans s t c d o => cases crashes
  | attradd s a =>
      cases s with
      | none => rfl
      | some s =>
          rcases crashes with ⟨known, reason⟩
          cases found : hashtabSearch p.pTypes.table s with
          | none => exact absurd found known
          | some domain =>
              cases a with
              | none => simp [perform, execute, addTypeattribute, findSymbol, found]
              | some a =>
                  rcases reason with noName | nullPointer
                  · cases noName
                  · simp [perform, execute, addTypeattribute_found found,
                      modifyPointed_eq_none nullPointer]

/-! ## Runs -/

namespace SameSymbols

variable {p next : Policy} (same : SameSymbols p next)

include same

theorem trans {last : Policy} (later : SameSymbols next last) : SameSymbols p last where
  types := later.types.trans same.types
  classes := later.classes.trans same.classes
  pointers := later.pointers.trans same.pointers
  nprim := later.nprim.trans same.nprim

theorem visitedClass_eq : visitedClass next = visitedClass p := by
  funext name
  rw [visitedClass, visitedClass, same.pointers, same.nprim]

theorem crashes_iff (call : PolicyCall) : Crashes next call ↔ Crashes p call := by
  cases call with
  | attradd s a =>
      cases s with
      | none => exact Iff.rfl
      | some s => simp only [Crashes, same.types, same.pointers, same.nprim]
  | rule action s t c perm => exact Iff.rfl
  | xperm action s t c range => exact Iff.rfl
  | typeState action s => exact Iff.rfl
  | typetrans s t c d o => exact Iff.rfl

theorem toPolicydb_eq : next.toPolicydb =
    { p.toPolicydb with
      teAvtab := next.teAvtab
      typeAttrMap := next.typeAttrMap } := by
  have sameTypes : next.toPolicydb.pTypes = p.toPolicydb.pTypes := by
    simp only [Policy.toPolicydb, same.types]
  dsimp only
  rw [← sameTypes, ← same.classes]
  rfl

theorem ruleMasks_eq (s t c p' : Option CString) (effect : AvtabSpecified) :
    ruleMasks next.toPolicydb s t c p' effect = ruleMasks p.toPolicydb s t c p' effect := by
  rw [same.toPolicydb_eq]
  rfl

theorem additions_eq (call : PolicyCall) : additions next call = additions p call := by
  cases call with
  | rule action s t c perm => simp only [additions, same.ruleMasks_eq]
  | xperm action s t c range => rfl
  | attradd s a =>
      cases s with
      | none => rfl
      | some s =>
          cases a with
          | none => rfl
          | some a =>
              have sameAttr : attrValue next a = attrValue p a := by
                simp only [attrValue, same.types]
              simp only [additions, attrAdditions, getAttrId_eq, sameAttr, same.types]
  | typeState action s =>
      cases action with
      | permissive => simp only [additions, same.types]
      | create => rfl
      | enforce => rfl
  | typetrans s t c d o => rfl

end SameSymbols

section Runs

variable (p : Policy) {calls : List Invocation}
  (granting : ∀ invocation, invocation ∈ calls → GrantingCall invocation.call)

include granting

/-- A run of granting calls: one crash ends it, and without one it adds what
the calls stand for in the policy at its start. -/
theorem runCalls_adds :
    ((∃ invocation, invocation ∈ calls ∧ Crashes p invocation.call) →
      runCalls calls p = none) ∧
    ((∀ invocation, invocation ∈ calls → ¬Crashes p invocation.call) →
      (runCalls calls p).map granted =
        some (calls.foldl (fun state invocation =>
          state.add (visitedClass p) (additions p invocation.call)) (granted p))) := by
  have crashing : ∀ invocation, invocation ∈ calls → Crashes p invocation.call →
      ∀ q, SameSymbols p q → perform invocation q = none := by
    intro invocation member crashes q same
    exact perform_crashes ((same.crashes_iff invocation.call).mpr crashes)
  have adding : ∀ invocation, invocation ∈ calls → ¬Crashes p invocation.call →
      ∀ q, SameSymbols p q → ∃ next, perform invocation q = some next ∧ SameSymbols p next ∧
        granted next = (granted q).add (visitedClass p) (additions p invocation.call) := by
    intro invocation member survives q same
    rcases perform_adds q (granting invocation member)
      (mt (same.crashes_iff invocation.call).mp survives) with ⟨next, performed, kept, added⟩
    refine ⟨next, performed, same.trans kept, ?_⟩
    rw [added, same.visitedClass_eq, same.additions_eq]
  have viewed := runSteps_view (SameSymbols p) granted (fun state invocation =>
    state.add (visitedClass p) (additions p invocation.call)) calls crashing adding
    ⟨rfl, rfl, rfl, rfl⟩
  refine ⟨viewed.1, fun survive => ?_⟩
  rcases viewed.2 survive with ⟨last, ran, -, added⟩
  rw [runCalls, ran, Option.map_some, added]

theorem runCalls_same_members {others : List Invocation}
    (sameMembers : ∀ invocation, invocation ∈ others ↔ invocation ∈ calls) :
    (runCalls others p).map granted = (runCalls calls p).map granted := by
  have othersAdd := runCalls_adds p fun invocation member =>
    granting invocation ((sameMembers invocation).mp member)
  have callsAdd := runCalls_adds p granting
  by_cases crash : ∃ invocation, invocation ∈ calls ∧ Crashes p invocation.call
  · have crashOthers : ∃ invocation, invocation ∈ others ∧ Crashes p invocation.call := by
      simpa only [sameMembers] using crash
    rw [othersAdd.1 crashOthers, callsAdd.1 crash]
  · have survive : ∀ invocation, invocation ∈ calls → ¬Crashes p invocation.call :=
      fun invocation member crashes => crash ⟨invocation, member, crashes⟩
    have accumulates := (accumulates_add (visitedClass p)).comap fun invocation : Invocation =>
      additions p invocation.call
    have surviveOthers : ∀ invocation, invocation ∈ others → ¬Crashes p invocation.call :=
      fun invocation member => survive invocation ((sameMembers invocation).mp member)
    rw [othersAdd.2 surviveOthers, callsAdd.2 survive,
      accumulates.foldl_eq_of_same_members sameMembers]

end Runs

/-! ## Statements -/

/-- A statement stands for the calls that its collections expand to, whatever
they return. -/
def runStatements (statements : List (List Invocation)) (p : Policy) : Option Policy :=
  runCalls statements.flatten p

/-- Granting statements produce the same in every order and when they are run
twice. They produce a policy unless one of them crashes. -/
theorem granting_statements_commute (p : Policy) (statements : List (List Invocation))
    (granting : ∀ statement, statement ∈ statements → ∀ invocation, invocation ∈ statement →
      GrantingCall invocation.call) :
    (∀ permuted : List (List Invocation), permuted.Perm statements →
      (runStatements permuted p).map granted = (runStatements statements p).map granted) ∧
    (runStatements (statements ++ statements) p).map granted =
      (runStatements statements p).map granted ∧
    ((∀ statement, statement ∈ statements → ∀ invocation, invocation ∈ statement →
      ¬Crashes p invocation.call) → ∃ last, runStatements statements p = some last) := by
  have allGrant : ∀ invocation, invocation ∈ statements.flatten → GrantingCall invocation.call := by
    intro invocation member
    rcases List.mem_flatten.mp member with ⟨statement, isStatement, isCall⟩
    exact granting statement isStatement invocation isCall
  refine ⟨?_, ?_, ?_⟩
  · intro permuted isPermuted
    exact runCalls_same_members p allGrant fun invocation => isPermuted.flatten.mem_iff
  · apply runCalls_same_members p allGrant
    intro invocation
    rw [List.flatten_append, List.mem_append, or_self]
  · intro survive
    have ran := (runCalls_adds p allGrant).2 fun invocation member => by
      rcases List.mem_flatten.mp member with ⟨statement, isStatement, isCall⟩
      exact survive statement isStatement invocation isCall
    rcases Option.map_eq_some_iff.mp ran with ⟨last, isLast, -⟩
    exact ⟨last, isLast⟩

/-- `permissive shell`, `attradd shell domain` and `allow su { shell domain }
file read` with an unknown source, in two orders. -/
theorem granting_statements_commute_shell :
    (runStatements
        [[⟨attradd "shell" "domain", (0, 0)⟩],
          [⟨allow "su" "shell" "file" (some "read"), (0, 0)⟩,
            ⟨allow "su" "domain" "file" (some "read"), (0, 0)⟩],
          [⟨permissive "shell", (0, 0)⟩]] (shellPolicy 30)).map granted =
      (runStatements
        [[⟨permissive "shell", (0, 0)⟩],
          [⟨attradd "shell" "domain", (0, 0)⟩],
          [⟨allow "su" "shell" "file" (some "read"), (0, 0)⟩,
            ⟨allow "su" "domain" "file" (some "read"), (0, 0)⟩]] (shellPolicy 30)).map granted := by
  apply (granting_statements_commute (shellPolicy 30) _ ?_).1
  · decide
  · intro statement isStatement invocation isCall
    simp only [List.mem_cons, List.not_mem_nil, or_false] at isStatement
    rcases isStatement with rfl | rfl | rfl
    · cases List.mem_singleton.mp isCall
      trivial
    · cases List.mem_singleton.mp isCall
      trivial
    · rcases List.mem_cons.mp isCall with rfl | later
      · exact fun isDeny => nomatch isDeny
      · cases List.mem_singleton.mp later
        exact fun isDeny => nomatch isDeny

end SuBinary.Magiskpolicy
