import SuBinary.Magiskpolicy.Commutation
import SuBinary.Magiskpolicy.TypeNumbering
import SuBinary.Magiskpolicy.XpermRange
import SuBinary.Magiskpolicy.XpermVersions

/-! # Applying the built-in rules twice

The built-in rules take permissions away as well as they give them, so their order
matters. A call still makes no difference where the same call comes again later:
each bit has the value that the last call gives it.
-/

namespace SuBinary.Magiskpolicy

open SuBinary Sepol

/-! ## What the calls write -/

def assignBits (vector : BitVec 32) (edit : BitVec 32 × Bool) : BitVec 32 :=
  if edit.2 then vector &&& ~~~edit.1 else vector ||| edit.1

def assignMask (data : List AvtabDatum) (edit : BitVec 32 × Bool) : List AvtabDatum :=
  { data.headD { data := 0 } with
    data := assignBits (data.headD { data := 0 }).data edit } :: data.tail

def writeRange (range : UInt16 × UInt16) (data : List AvtabDatum) (written : Bool) :
    List AvtabDatum :=
  if written then
    editXpermDatum range.1 range.2 false
      (data.headD { data := 0, xperms := newXperms range.1 range.2 }) :: data.tail
  else data

/-- What a call changes: access vectors, the extended rules that get the range, and
the rest, where bits are only added. -/
structure Edits where
  vectors : AvtabKey → List (BitVec 32 × Bool) := fun _ => []
  ranges : AvtabKey → Bool := fun _ => false
  additions : Additions := {}

def Granted.edit (range : UInt16 × UInt16) (pointed : CString → Bool) (state : Granted)
    (edits : Edits) : Granted :=
  { state.add pointed edits.additions with
    rules := fun key =>
      if key.specified.isXperms then writeRange range (state.rules key) (edits.ranges key)
      else (edits.vectors key).foldl assignMask (state.rules key) }

theorem overwrites_assignBits : Overwrites assignBits where
  idempotent vector edit := by
    rcases edit with ⟨mask, clears⟩
    cases clears with
    | false => simp [assignBits, BitVec.or_assoc]
    | true => simp [assignBits, BitVec.and_assoc]
  absorbs vector edit later := by
    rcases edit with ⟨mask, clears⟩
    rcases later with ⟨laterMask, laterClears⟩
    apply BitVec.eq_of_getLsbD_eq
    intro bit inside
    cases clears <;> cases laterClears <;>
      simp only [assignBits, Bool.false_eq_true, if_false, if_true, BitVec.getLsbD_or,
        BitVec.getLsbD_and, BitVec.getLsbD_not, inside, decide_true, Bool.true_and] <;>
      cases vector.getLsbD bit <;> cases mask.getLsbD bit <;> cases laterMask.getLsbD bit <;> rfl

theorem overwrites_assignMask : Overwrites assignMask where
  idempotent data edit := by
    simp only [assignMask, List.headD_cons, List.tail_cons, overwrites_assignBits.idempotent]
  absorbs data edit later := by
    simp only [assignMask, List.headD_cons, List.tail_cons, overwrites_assignBits.absorbs]

theorem overwrites_writeRange (range : UInt16 × UInt16) : Overwrites (writeRange range) where
  idempotent data written := by
    cases written with
    | false => rfl
    | true => simp [writeRange, editXpermDatum_idempotent]
  absorbs data written later := by
    cases written <;> cases later <;> simp [writeRange, editXpermDatum_idempotent]

theorem overwrites_edit (range : UInt16 × UInt16) (pointed : CString → Bool) :
    Overwrites (Granted.edit range pointed) where
  idempotent state edits := by
    simp only [Granted.edit, Granted.add, Granted.mk.injEq]
    refine ⟨?_, ?_, ?_, ?_, ?_⟩
    · funext key
      split
      · exact (overwrites_writeRange range).idempotent _ _
      · exact overwrites_assignMask.lists.idempotent _ _
    · exact accumulates_addPermissive.lists.idempotent _ _
    · exact accumulates_addRowBit.lists.idempotent _ _
    · exact accumulates_addRowBit.lists.idempotent _ _
    · exact (accumulates_addName pointed).lists.idempotent _ _
  absorbs state edits later := by
    simp only [Granted.edit, Granted.add, Granted.mk.injEq]
    refine ⟨?_, ?_, ?_, ?_, ?_⟩
    · funext key
      split
      · exact (overwrites_writeRange range).absorbs _ _ _
      · exact overwrites_assignMask.lists.absorbs _ _ _
    · exact accumulates_addPermissive.lists.overwrites.absorbs _ _ _
    · exact accumulates_addRowBit.lists.overwrites.absorbs _ _ _
    · exact accumulates_addRowBit.lists.overwrites.absorbs _ _ _
    · exact (accumulates_addName pointed).lists.overwrites.absorbs _ _ _

/-! ## One call -/

/-- The calls of the built-in rules apart from those that create a type; extended
rules have a fixed range. -/
def PatchingCall (word : CString) : PolicyCall → Prop
  | .rule _ _ _ _ _ => True
  | .xperm _ _ _ _ range => range = some word
  | .attradd _ _ => True
  | .typeState .permissive _ => True
  | _ => False

instance (word : CString) : DecidablePred (PatchingCall word)
  | .rule _ _ _ _ _ => .isTrue trivial
  | .xperm _ _ _ _ range => inferInstanceAs (Decidable (range = some word))
  | .attradd _ _ => .isTrue trivial
  | .typeState .permissive _ => .isTrue trivial
  | .typeState .create _ => .isFalse id
  | .typeState .enforce _ => .isFalse id
  | .typetrans _ _ _ _ _ => .isFalse id

def edits (p : Policy) : PolicyCall → Edits
  | .rule action s t c perm =>
      { vectors := fun key => (ruleMasks p.toPolicydb s t c perm action.effect.1 key).map
          fun mask => (mask, action.effect.2) }
  | .xperm action s t c _ =>
      { ranges := fun key =>
          match xpermSymbols p.toPolicydb s t c with
          | .error _ => false
          | .ok symbols => decide (key ∈ symbols.keys p.toPolicydb action.effect) }
  | call => { additions := additions p call }

theorem editDatum_eq_assign (perm : Option PermDatum) (not : Bool) (datum : AvtabDatum) :
    editDatum (permArg perm) not datum =
      { datum with data := assignBits datum.data (permMask perm, not) } := by
  cases not with
  | false => exact editDatum_eq_or perm datum
  | true =>
      unfold editDatum permMask editVector assignBits
      by_cases all : permArg perm < 0
      · simp [all]
      · simp [all]

theorem data_addRule_edits (db : Policydb) (s t c p : Option CString) (effect : AvtabSpecified)
    (not : Bool) (key : AvtabKey) :
    (addRule db s t c p effect not).1.teAvtab.data key =
      ((ruleMasks db s t c p effect key).map fun mask => (mask, not)).foldl assignMask
        (db.teAvtab.data key) := by
  rw [ruleMasks]
  cases found : ruleSymbols db s t c p with
  | error error =>
      rw [addRule_unresolved found]
      rfl
  | ok symbols =>
      rw [addRule_eq_editKeys found, data_editKeys]
      by_cases visited : key ∈ symbols.keys db effect
      · simp [visited, editDatum_eq_assign, assignMask]
      · simp [visited]

theorem data_addXpermRule_edits {word : CString} {range : UInt16 × UInt16}
    (isRange : ∀ stale, scanRange stale (some word) = range) (db : Policydb)
    (s t c : Option CString) (stale : UInt16 × UInt16) (effect : AvtabSpecified) (key : AvtabKey) :
    (addXpermRule stale s t c (some word) effect false db).1.teAvtab.data key =
      writeRange range (db.teAvtab.data key)
        (match xpermSymbols db s t c with
          | .error _ => false
          | .ok symbols => decide (key ∈ symbols.keys db effect)) := by
  cases found : xpermSymbols db s t c with
  | error error =>
      rw [addXpermRule_unresolved found]
      rfl
  | ok symbols =>
      rw [addXpermRule_eq_editKeys found, isRange, data_editXpermKeys]
      by_cases visited : key ∈ symbols.keys db effect
      · simp [visited, writeRange]
      · simp [visited, writeRange]

theorem data_addXpermRule_of_ne (db : Policydb) (s t c range : Option CString)
    (stale : UInt16 × UInt16) {effect : AvtabSpecified} {key : AvtabKey}
    (otherKind : key.specified ≠ effect) :
    (addXpermRule stale s t c range effect false db).1.teAvtab.data key = db.teAvtab.data key := by
  cases found : xpermSymbols db s t c with
  | error error => rw [addXpermRule_unresolved found]
  | ok symbols =>
      have unvisited : key ∉ symbols.keys db effect :=
        fun member => otherKind (specified_of_mem_ruleKeys member)
      rw [addXpermRule_eq_editKeys found, data_editXpermKeys, if_neg unvisited]

/-- The tables that the calls and the tests of the built-in rules look at. -/
structure KeepsTables (p next : Policy) : Prop extends SameSymbols p next where
  roles : next.pRoles = p.pRoles
  policyvers : next.policyvers = p.policyvers

theorem edit_additions (range : UInt16 × UInt16) (pointed : CString → Bool) (state : Granted)
    {additions : Additions} (noMasks : ∀ key, additions.masks key = []) :
    state.edit range pointed { additions := additions } = state.add pointed additions := by
  simp only [Granted.edit, Granted.add, Granted.mk.injEq, and_true]
  funext key
  simp [noMasks, writeRange]

theorem Executes.roles_eq {p next : Policy} {call : PolicyCall} (executes : Executes p call next)
    (noNew : ∀ d, ¬CreatesNew p d call) : next.pRoles = p.pRoles := by
  cases executes with
  | rules teAvtab permissiveMap _ => rfl
  | sets domainS attr domain table isCall found =>
      have others := (changesMaps_setAttr p attr domain.value).others
      rw [others]
  | creates d isNew next result ran => exact absurd isNew (noNew d)
  | named pTypes filenameTrans isNamed => rfl

theorem perform_additions (range : UInt16 × UInt16) {p : Policy} {invocation : Invocation}
    (grants : GrantingCall invocation.call) (survives : ¬Crashes p invocation.call)
    (noMasks : ∀ key, (additions p invocation.call).masks key = []) :
    ∃ next, perform invocation p = some next ∧ KeepsTables p next ∧
      granted next = (granted p).edit range (visitedClass p)
        { additions := additions p invocation.call } := by
  rcases perform_adds p grants survives with ⟨next, performed, same, added⟩
  rcases perform_eq_some performed with ⟨result, ran⟩
  have executes := executes_of_execute ran
  have noNew : ∀ d, ¬CreatesNew p d invocation.call := by
    rintro d ⟨isCreate, -⟩
    rw [isCreate] at grants
    exact grants
  refine ⟨next, performed, ⟨same, executes.roles_eq noNew, executes.policyvers_eq⟩, ?_⟩
  rw [edit_additions range (visitedClass p) (granted p) noMasks, added]

theorem perform_edits {word : CString} {range : UInt16 × UInt16}
    (isRange : ∀ stale, scanRange stale (some word) = range) (p : Policy)
    {invocation : Invocation} (patches : PatchingCall word invocation.call)
    (survives : ¬Crashes p invocation.call) :
    ∃ next, perform invocation p = some next ∧ KeepsTables p next ∧
      granted next = (granted p).edit range (visitedClass p) (edits p invocation.call) := by
  rcases invocation with ⟨call, stale⟩
  cases call with
  | rule action s t c perm =>
      refine ⟨_, rfl, ⟨⟨rfl, rfl, rfl, rfl⟩, rfl, rfl⟩, ?_⟩
      have rules : ∀ key, ((onRules (fun db => addRule db s t c perm action.effect.1
          action.effect.2) p).1.teAvtab.data key) =
          if key.specified.isXperms then p.teAvtab.data key
          else ((ruleMasks p.toPolicydb s t c perm action.effect.1 key).map fun mask =>
            (mask, action.effect.2)).foldl assignMask (p.teAvtab.data key) := by
        intro key
        have effects := data_addRule_edits p.toPolicydb s t c perm action.effect.1
          action.effect.2 key
        split
        · rename_i isXperms
          refine data_addRule_of_ne p.toPolicydb s t c perm _ _ fun sameKind => ?_
          rw [sameKind] at isXperms
          cases action <;> cases isXperms
        · exact effects
      simp only [granted, Granted.edit, Granted.add, edits, writeRange, Bool.false_eq_true,
        if_false, Granted.mk.injEq, onRules_eq, and_true, List.map_nil, List.foldl_nil]
      funext key
      exact rules key
  | xperm action s t c word =>
      cases patches
      refine ⟨_, rfl, ⟨⟨rfl, rfl, rfl, rfl⟩, rfl, rfl⟩, ?_⟩
      have isXperms : action.effect.isXperms = true := by cases action <;> rfl
      simp only [granted, Granted.edit, Granted.add, edits, List.map_nil, List.foldl_nil,
        Granted.mk.injEq, onRules_eq, and_true]
      funext key
      split
      · exact data_addXpermRule_edits isRange p.toPolicydb s t c stale action.effect key
      · rename_i notXperms
        refine data_addXpermRule_of_ne p.toPolicydb s t c _ stale fun sameKind => ?_
        rw [sameKind] at notXperms
        exact notXperms isXperms
  | attradd s a =>
      refine @perform_additions range p ⟨.attradd s a, stale⟩ trivial survives fun key => ?_
      cases s with
      | none => rfl
      | some s =>
          cases a with
          | none => rfl
          | some a =>
              simp only [additions, attrAdditions]
              cases hashtabSearch p.pTypes.table s with
              | none => rfl
              | some domain => rfl
  | typeState action s =>
      cases action with
      | create => cases patches
      | enforce => cases patches
      | permissive =>
          exact @perform_additions range p ⟨.typeState .permissive s, stale⟩ trivial survives
            fun key => rfl
  | typetrans s t c d o => cases patches

/-! ## One pass -/

namespace KeepsTables

variable {p next : Policy} (keeps : KeepsTables p next)

include keeps

theorem transitive {last : Policy} (later : KeepsTables next last) : KeepsTables p last where
  toSameSymbols := keeps.toSameSymbols.trans later.toSameSymbols
  roles := later.roles.trans keeps.roles
  policyvers := later.policyvers.trans keeps.policyvers

theorem edits_eq (call : PolicyCall) : edits next call = edits p call := by
  cases call with
  | rule action s t c perm => simp only [edits, keeps.ruleMasks_eq]
  | xperm action s t c range =>
      simp only [edits, keeps.toPolicydb_eq]
      rfl
  | attradd s a => simp only [edits, keeps.additions_eq]
  | typeState action s => simp only [edits, keeps.additions_eq]
  | typetrans s t c d o => simp only [edits, keeps.additions_eq]

theorem selected_eq (step : BuiltinStep) : step.selected next = step.selected p := by
  cases step with
  | call only => rfl
  | ifExists source calls =>
      simp only [BuiltinStep.selected, sepolExists, keeps.types]
      rfl
  | unlessExists source calls =>
      simp only [BuiltinStep.selected, sepolExists, keeps.types]
      rfl
  | ifVersion policyvers calls => simp only [BuiltinStep.selected, keeps.policyvers]

end KeepsTables

def BuiltinStep.calls : BuiltinStep → List PolicyCall
  | .call only => [only]
  | .ifExists _ calls => calls
  | .unlessExists _ calls => calls
  | .ifVersion _ calls => calls

theorem mem_calls_of_mem_selected {p : Policy} {step : BuiltinStep} {call : PolicyCall}
    (member : call ∈ step.selected p) : call ∈ step.calls := by
  cases step with
  | call only => exact member
  | ifExists source calls =>
      rw [BuiltinStep.selected] at member
      split at member
      · exact member
      · cases member
  | unlessExists source calls =>
      rw [BuiltinStep.selected] at member
      split at member
      · cases member
      · exact member
  | ifVersion policyvers calls =>
      rw [BuiltinStep.selected] at member
      split at member
      · exact member
      · cases member

def BuiltinStep.edit (range : UInt16 × UInt16) (p : Policy) (state : Granted)
    (step : BuiltinStep) : Granted :=
  (step.selected p).foldl (fun state call =>
    state.edit range (visitedClass p) (edits p call)) state

theorem overwrites_builtinStep (range : UInt16 × UInt16) (p : Policy) :
    Overwrites (BuiltinStep.edit range p) :=
  ((overwrites_edit range (visitedClass p)).comap (edits p)).lists.comap
    fun step : BuiltinStep => step.selected p

def BuiltinStep.Ends (p : Policy) (step : BuiltinStep) : Prop :=
  ∃ call, call ∈ step.selected p ∧ Crashes p call

section Passes

variable {word : CString} {range : UInt16 × UInt16}
  (isRange : ∀ stale, scanRange stale (some word) = range) (p : Policy)

include isRange

theorem builtinStep_edits {step : BuiltinStep}
    (patches : ∀ call, call ∈ step.calls → PatchingCall word call) (stale : UInt16 × UInt16)
    {q : Policy} (keeps : KeepsTables p q) :
    (step.Ends p → step.run stale q = none) ∧
      (¬step.Ends p → ∃ last, step.run stale q = some last ∧ KeepsTables p last ∧
        granted last = step.edit range p (granted q)) := by
  have crashing : ∀ invocation,
      invocation ∈ ((step.selected p).map fun call => Invocation.mk call stale) →
      Crashes p invocation.call → ∀ q, KeepsTables p q → perform invocation q = none := by
    intro invocation member crashes q keeps
    exact perform_crashes ((keeps.crashes_iff invocation.call).mpr crashes)
  have editing : ∀ invocation,
      invocation ∈ ((step.selected p).map fun call => Invocation.mk call stale) →
      ¬Crashes p invocation.call → ∀ q, KeepsTables p q →
      ∃ next, perform invocation q = some next ∧ KeepsTables p next ∧
        granted next = (granted q).edit range (visitedClass p) (edits p invocation.call) := by
    intro invocation member survives q keeps
    rcases List.mem_map.mp member with ⟨call, selected, rfl⟩
    have isPatch := patches call (mem_calls_of_mem_selected selected)
    rcases @perform_edits word range isRange q ⟨call, stale⟩ isPatch
      (mt (keeps.crashes_iff call).mp survives) with ⟨next, performed, kept, edited⟩
    refine ⟨next, performed, keeps.transitive kept, ?_⟩
    rw [edited, keeps.visitedClass_eq, keeps.edits_eq]
  have viewed := runSteps_view (KeepsTables p) granted (fun state invocation =>
    state.edit range (visitedClass p) (edits p invocation.call))
    ((step.selected p).map fun call => Invocation.mk call stale) crashing editing keeps
  rw [BuiltinStep.run, keeps.selected_eq]
  constructor
  · rintro ⟨call, selected, crashes⟩
    exact viewed.1 ⟨⟨call, stale⟩, List.mem_map_of_mem selected, crashes⟩
  · intro goesOn
    have survive : ∀ invocation,
        invocation ∈ ((step.selected p).map fun call => Invocation.mk call stale) →
        ¬Crashes p invocation.call := by
      intro invocation member crashes
      rcases List.mem_map.mp member with ⟨call, selected, rfl⟩
      exact goesOn ⟨call, selected, crashes⟩
    rcases viewed.2 survive with ⟨last, ran, kept, edited⟩
    rw [List.foldl_map] at edited
    exact ⟨last, ran, kept, edited⟩

/-- Steps of patching calls that have run run again, with the same result. -/
theorem builtinSteps_again {steps : List BuiltinStep}
    (patches : ∀ step, step ∈ steps → ∀ call, call ∈ step.calls → PatchingCall word call)
    (stale other : UInt16 × UInt16) {once : Policy}
    (ran : runSteps (BuiltinStep.run stale) steps p = some once) :
    ∃ twice, runSteps (BuiltinStep.run other) steps once = some twice ∧ KeepsTables p once ∧
      KeepsTables p twice ∧ granted twice = granted once := by
  have pass : ∀ stale q, KeepsTables p q → _ := fun stale q keeps =>
    runSteps_view (KeepsTables p) granted
      (BuiltinStep.edit range p) steps
      (fun step member ends q keeps =>
        (builtinStep_edits isRange p (patches step member) stale keeps).1 ends)
      (fun step member goesOn q keeps =>
        (builtinStep_edits isRange p (patches step member) stale keeps).2 goesOn) keeps
  have tables : KeepsTables p p := ⟨⟨rfl, rfl, rfl, rfl⟩, rfl, rfl⟩
  by_cases ends : ∃ step, step ∈ steps ∧ step.Ends p
  · rw [(pass stale p tables).1 ends] at ran
    cases ran
  · have goesOn : ∀ step, step ∈ steps → ¬step.Ends p :=
      fun step member stepEnds => ends ⟨step, member, stepEnds⟩
    rcases (pass stale p tables).2 goesOn with ⟨first, ranFirst, kept, edited⟩
    cases ranFirst.symm.trans ran
    rcases (pass other once kept).2 goesOn with ⟨twice, ranTwice, keptTwice, editedTwice⟩
    refine ⟨twice, ranTwice, kept, keptTwice, ?_⟩
    rw [editedTwice, edited]
    exact (overwrites_builtinStep range p).foldl_idempotent steps (granted p)

end Passes

/-! ## New types -/

theorem addToRoles_types {p next : Policy} {bit : Nat} (ran : addToRoles p bit = some next) :
    next.pTypes = p.pTypes := by
  rcases Option.bind_eq_some_iff.mp ran with ⟨table, -, isNext⟩
  cases isNext
  rfl

theorem reindex_types (p : Policy) : (reindex p).1.pTypes = p.pTypes := by
  rcases reindex_frame p with ⟨_, _, _, _, framed⟩
  rw [framed]

theorem createDomain_types {p next : Policy} {d : CString} {result : Nat}
    (fresh : hashtabSearch p.pTypes.table d = none)
    (ran : createDomain p (some d) = some (next, result)) :
    next.pTypes = (declareType p d).1.pTypes := by
  rw [createDomain_fresh fresh] at ran
  split at ran
  · cases ran
    exact reindex_types _
  · rcases Option.map_eq_some_iff.mp ran with ⟨entered, intoRoles, changed⟩
    have kept := (keepsTypes_setAttr entered (ascii "domain") (p.pTypes.nprim + 1)).pTypes
    rw [changed] at kept
    exact kept.trans ((addToRoles_types intoRoles).trans (reindex_types _))

theorem createDomain_known {p next : Policy} {d : CString} {result : Nat}
    (ran : createDomain p (some d) = some (next, result)) (name : CString)
    (known : name = d ∨ sepolExists p name = true) : sepolExists next name = true := by
  cases found : hashtabSearch p.pTypes.table d with
  | some type =>
      rw [createDomain_exists found] at ran
      cases ran
      rcases known with rfl | known
      · simp [sepolExists, found]
      · exact known
  | none =>
      have types := createDomain_types found ran
      rcases declareType_fresh found with ⟨table, permuted, declared⟩
      have entry : ∃ type, (name, type) ∈ next.pTypes.table.entries := by
        rw [types, declared]
        simp only [permuted.mem_iff]
        rcases known with rfl | known
        · exact ⟨newType p, List.mem_cons_self⟩
        · rcases Option.isSome_iff_exists.mp known with ⟨type, isType⟩
          exact ⟨type, List.mem_cons_of_mem _ ((hashtabSearch_eq_some_iff _ _ _).mp isType)⟩
      rcases entry with ⟨type, member⟩
      rw [sepolExists, (hashtabSearch_eq_some_iff _ _ _).mpr member]
      rfl

theorem createUnlessExists_known {stale : UInt16 × UInt16} {p next : Policy} {d : CString}
    (ran : (BuiltinStep.unlessExists d [.typeState .create (some d)]).run stale p = some next)
    (name : CString) (known : name = d ∨ sepolExists p name = true) :
    sepolExists next name = true := by
  by_cases present : sepolExists p d = true
  · simp only [BuiltinStep.run, BuiltinStep.selected, present, if_true, List.map_nil] at ran
    cases ran
    rcases known with rfl | known
    · exact present
    · exact known
  · rw [BuiltinStep.run, BuiltinStep.selected, if_neg present] at ran
    rcases (runSteps_cons _ _ _ _).mp ran with ⟨created, performed, isNext⟩
    cases isNext
    rcases perform_eq_some performed with ⟨result, executed⟩
    exact createDomain_known executed name known

theorem createUnlessExists_present (stale : UInt16 × UInt16) {p : Policy} {d : CString}
    (present : sepolExists p d = true) (calls : List PolicyCall) :
    (BuiltinStep.unlessExists d calls).run stale p = some p := by
  simp only [BuiltinStep.run, BuiltinStep.selected, present, if_true, List.map_nil]
  rfl

/-! ## Two passes -/

/-- What the built-in rules write; the rules are those of the `te_avtab`, extended
ones included. -/
structure Patched extends Granted where
  pTypes : Symtab TypeSymbol
  pRoles : Symtab RoleDatum

def patched (p : Policy) : Patched :=
  { granted p with
    pTypes := p.pTypes
    pRoles := p.pRoles }

def creations : List BuiltinStep := minRules.take 2

def patches : List BuiltinStep := minRules.drop 2

theorem patches_patching : ∀ step, step ∈ patches → ∀ call, call ∈ step.calls →
    PatchingCall (ascii "0x5400-0x54FF") call := by
  decide +kernel

theorem isRange_patches : IsRange (ascii "0x5400-0x54FF") 0x5400 0x54FF := by
  refine Or.inr ⟨ascii "0x5400", ascii "0x54FF", rfl, ?_, ?_, by decide⟩
  · exact ⟨ascii "0x", ascii "5400", rfl, by decide, by decide, by decide +kernel,
      by decide +kernel⟩
  · exact ⟨ascii "0x", ascii "54FF", rfl, by decide, by decide, by decide +kernel,
      by decide +kernel⟩

theorem scanRange_patches (stale : UInt16 × UInt16) :
    scanRange stale (some (ascii "0x5400-0x54FF")) = (0x5400, 0x54FF) :=
  scanRange_of_isRange isRange_patches stale

theorem sepolMinRules_eq (stale : UInt16 × UInt16) (p : Policy) :
    sepolMinRules stale p = (runSteps (BuiltinStep.run stale) creations p).bind
      (runSteps (BuiltinStep.run stale) patches) := by
  rw [← runSteps_append, creations, patches, List.take_append_drop]
  rfl

theorem creations_known {stale : UInt16 × UInt16} {p next : Policy}
    (ran : runSteps (BuiltinStep.run stale) creations p = some next) :
    sepolExists next (ascii "su") = true ∧ sepolExists next (ascii "su_device") = true := by
  rcases (runSteps_cons _ _ _ _).mp ran with ⟨first, createdSu, later⟩
  rcases (runSteps_cons _ _ _ _).mp later with ⟨second, createdDevice, isNext⟩
  cases isNext
  have su := createUnlessExists_known createdSu (ascii "su") (Or.inl rfl)
  exact ⟨createUnlessExists_known createdDevice (ascii "su") (Or.inr su),
    createUnlessExists_known createdDevice (ascii "su_device") (Or.inl rfl)⟩

theorem creations_present (stale : UInt16 × UInt16) {p : Policy}
    (su : sepolExists p (ascii "su") = true)
    (device : sepolExists p (ascii "su_device") = true) :
    runSteps (BuiltinStep.run stale) creations p = some p :=
  (runSteps_cons _ _ _ _).mpr ⟨p, createUnlessExists_present stale su _,
    (runSteps_cons _ _ _ _).mpr ⟨p, createUnlessExists_present stale device _, rfl⟩⟩

/-- On every policy the built-in rules do the second time what they did the first
time, and so change nothing. -/
theorem sepolMinRules_again (p : Policy) (stale other : UInt16 × UInt16) :
    ((sepolMinRules stale p).bind (sepolMinRules other)).map patched =
      (sepolMinRules stale p).map patched := by
  cases ran : sepolMinRules stale p with
  | none => rfl
  | some once =>
      rw [sepolMinRules_eq, Option.bind_eq_some_iff] at ran
      rcases ran with ⟨created, creating, patching⟩
      rcases creations_known creating with ⟨su, device⟩
      rcases builtinSteps_again scanRange_patches created patches_patching stale other patching with
        ⟨twice, ranTwice, kept, keptTwice, same⟩
      rw [sepolExists, ← kept.types] at su device
      have present := creations_present other su device
      rw [Option.bind_some, sepolMinRules_eq, present, Option.bind_some, ranTwice, Option.map_some,
        Option.map_some]
      simp only [patched, same, kept.types, keptTwice.types, kept.roles, keptTwice.roles]

end SuBinary.Magiskpolicy
