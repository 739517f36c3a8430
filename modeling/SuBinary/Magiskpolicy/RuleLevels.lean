import SuBinary.Magiskpolicy.LastRule

/-! # The levels of built-in rules

What the minimal rules of `rules.c` can take away, and how the medium rules, which start with the
minimal ones, relate to them.
-/

namespace SuBinary.Magiskpolicy

open SuBinary Sepol

/-! ## The medium and the full rules -/

/-- `sepol_allow` with `ALL` for what is left out. -/
def allowIn (s t c perm : Option String) : PolicyCall :=
  .rule .allow (s.map ascii) (t.map ascii) (c.map ascii) (perm.map ascii)

def allowSuClient (target : String) : List PolicyCall :=
  [allow target "rootfs" "file" none,
    allow target "rootfs" "lnk_file" none,
    allow target "su" "unix_stream_socket" (some "connectto"),
    allow target "su" "unix_stream_socket" (some "getopt"),
    allow target "su_device" "dir" (some "search"),
    allow target "su_device" "dir" (some "read"),
    allow target "su_device" "sock_file" (some "read"),
    allow target "su_device" "sock_file" (some "write"),
    allow target "devpts" "chr_file" (some "ioctl"),
    allow "su" target "fd" (some "use"),
    allow "su" target "fifo_file" none]

def suRights : List PolicyCall :=
  [allow "servicemanager" "su" "dir" (some "search"),
    allow "servicemanager" "su" "dir" (some "read"),
    allow "servicemanager" "su" "file" (some "open"),
    allow "servicemanager" "su" "file" (some "read"),
    allow "servicemanager" "su" "process" (some "getattr"),
    allow "servicemanager" "su" "binder" (some "transfer"),
    allow "system_server" "su" "binder" (some "call"),
    allow "system_server" "su" "fd" (some "use"),
    allow "su" "servicemanager" "dir" (some "search"),
    allow "su" "servicemanager" "dir" (some "read"),
    allow "su" "servicemanager" "file" (some "open"),
    allow "su" "servicemanager" "file" (some "read"),
    allow "su" "servicemanager" "process" (some "getattr"),
    allow "su" "servicemanager" "binder" (some "transfer"),
    allow "su" "servicemanager" "binder" (some "call"),
    allow "su" "system_server" "binder" (some "transfer"),
    allow "su" "system_server" "binder" (some "call")]

def otherToSU : List BuiltinStep :=
  ([ -- allowLog
    allow "logd" "su" "dir" (some "search"),
    allow "logd" "su" "file" (some "read"),
    allow "logd" "su" "file" (some "open"),
    allow "logd" "su" "file" (some "getattr"),
    -- suBackL0
    allow "system_server" "su" "binder" (some "call"),
    allow "system_server" "su" "binder" (some "transfer")] ++
  -- ES Explorer opens a sokcet
  ["ioctl", "read", "getattr", "write", "setattr", "lock", "append", "bind", "connect", "getopt",
    "setopt", "shutdown", "connectto"].map
      (fun perm => allow "untrusted_app" "su" "unix_stream_socket" (some perm)) ++
  [ -- Any domain is allowed to send su "sigchld"
    allowIn none (some "su") (some "process") (some "sigchld"),
    -- uNetworkL0
    attradd "su" "netdomain",
    attradd "su" "bluetoothdomain",
    -- suBackL6
    allow "surfaceflinger" "app_data_file" "dir" none,
    allow "surfaceflinger" "app_data_file" "file" none,
    allow "surfaceflinger" "app_data_file" "lnk_file" none,
    attradd "surfaceflinger" "mlstrustedsubject"]).map BuiltinStep.call ++
  -- suMiscL6
  [.ifExists (ascii "audioserver") [allow "audioserver" "audioserver" "process" (some "execmem")],
    -- Liveboot
    .call (allow "surfaceflinger" "su" "process" (some "ptrace")),
    .call (allow "surfaceflinger" "su" "binder" (some "transfer")),
    .call (allow "surfaceflinger" "su" "binder" (some "call")),
    .call (allow "surfaceflinger" "su" "fd" (some "use")),
    .call (allow "debuggerd" "su" "process" (some "ptrace"))]

def medRules : List BuiltinStep :=
  -- Allow su to do anything to any files/dir/links
  ([allowIn (some "su") none (some "file") none,
    allowIn (some "su") none (some "dir") none,
    allowIn (some "su") none (some "lnk_file") none,
    allowIn (some "su") none (some "blk_file") none] ++
  -- Allow these client to access su
  ["shell", "untrusted_app", "system_app", "platform_app"].flatMap allowSuClient).map
    BuiltinStep.call ++
  ["priv_app", "ssd_tool", "untrusted_app_25"].map
    (fun client => BuiltinStep.ifExists (ascii client) (allowSuClient client)) ++
  suRights.map BuiltinStep.call ++ otherToSU

def sepolMedRules (stale : UInt16 × UInt16) (p : Policy) : Option Policy :=
  (sepolMinRules stale p).bind (runSteps (BuiltinStep.run stale) medRules)

/-! ## Rules on top of each other -/

section Passes

variable {word : CString} {range : UInt16 × UInt16}
  (isRange : ∀ stale, scanRange stale (some word) = range) (p : Policy)

include isRange

theorem builtinSteps_edits {steps : List BuiltinStep}
    (patches : ∀ step, step ∈ steps → ∀ call, call ∈ step.calls → PatchingCall word call)
    (stale : UInt16 × UInt16) {q : Policy} (keeps : KeepsTables p q) :
    ((∃ step, step ∈ steps ∧ step.Ends p) → runSteps (BuiltinStep.run stale) steps q = none) ∧
      ((∀ step, step ∈ steps → ¬step.Ends p) → ∃ last,
        runSteps (BuiltinStep.run stale) steps q = some last ∧ KeepsTables p last ∧
          granted last = steps.foldl (BuiltinStep.edit range p) (granted q)) :=
  runSteps_view (KeepsTables p) granted (BuiltinStep.edit range p) steps
    (fun step member ends _ keeps =>
      (builtinStep_edits isRange p (patches step member) stale keeps).1 ends)
    (fun step member goesOn _ keeps =>
      (builtinStep_edits isRange p (patches step member) stale keeps).2 goesOn) keeps

theorem keepsTables_builtinSteps {steps : List BuiltinStep}
    (patches : ∀ step, step ∈ steps → ∀ call, call ∈ step.calls → PatchingCall word call)
    {stale : UInt16 × UInt16} {last : Policy}
    (ran : runSteps (BuiltinStep.run stale) steps p = some last) : KeepsTables p last := by
  have edits := builtinSteps_edits isRange p patches stale (KeepsTables.refl p)
  by_cases ends : ∃ step, step ∈ steps ∧ step.Ends p
  · rw [edits.1 ends] at ran
    cases ran
  · rcases edits.2 fun step member stepEnds => ends ⟨step, member, stepEnds⟩ with
      ⟨other, ranToo, kept, -⟩
    cases ranToo.symm.trans ran
    exact kept

/-- Steps that all come again later make no difference, nor do the values of uninitialised
variables. -/
theorem builtinSteps_absorb {items later : List BuiltinStep}
    (patches : ∀ step, step ∈ later → ∀ call, call ∈ step.calls → PatchingCall word call)
    (members : ∀ step, step ∈ items → step ∈ later) (stale other another : UInt16 × UInt16) :
    (((runSteps (BuiltinStep.run stale) items p).bind
        (runSteps (BuiltinStep.run other) later)).map patched =
      (runSteps (BuiltinStep.run another) later p).map patched) := by
  have tables := KeepsTables.refl p
  have patchesItems := fun step member => patches step (members step member)
  have first := builtinSteps_edits isRange p patchesItems stale tables
  have direct := builtinSteps_edits isRange p patches another tables
  by_cases ends : ∃ step, step ∈ later ∧ step.Ends p
  · rw [direct.1 ends]
    by_cases endsFirst : ∃ step, step ∈ items ∧ step.Ends p
    · rw [first.1 endsFirst]
      rfl
    · rcases first.2 fun step member stepEnds => endsFirst ⟨step, member, stepEnds⟩ with
        ⟨middle, ran, kept, -⟩
      rw [ran, Option.bind_some, (builtinSteps_edits isRange p patches other kept).1 ends]
  · have goesOn : ∀ step, step ∈ later → ¬step.Ends p :=
      fun step member stepEnds => ends ⟨step, member, stepEnds⟩
    rcases first.2 fun step member => goesOn step (members step member) with
      ⟨middle, ran, kept, edited⟩
    rcases (builtinSteps_edits isRange p patches other kept).2 goesOn with
      ⟨last, ranLater, keptLater, editedLater⟩
    rcases direct.2 goesOn with ⟨once, ranOnce, keptOnce, editedOnce⟩
    have same : granted last = granted once := by
      rw [editedLater, edited, editedOnce]
      exact (overwrites_builtinStep range p).foldl_absorbs members (granted p)
    rw [ran, Option.bind_some, ranLater, ranOnce, Option.map_some, Option.map_some]
    simp only [patched, same, keptLater.types, keptOnce.types, keptLater.roles, keptOnce.roles]

end Passes

theorem medRules_patching : ∀ step, step ∈ patches ++ medRules → ∀ call, call ∈ step.calls →
    PatchingCall (ascii "0x5400-0x54FF") call := by
  intro step member
  rcases List.mem_append.mp member with inMin | inMed
  · exact patches_patching step inMin
  · have allPatch : ∀ step, step ∈ medRules → ∀ call, call ∈ step.calls →
        PatchingCall (ascii "0x5400-0x54FF") call := by decide +kernel
    exact allPatch step inMed

theorem sepolMedRules_eq (stale : UInt16 × UInt16) (p : Policy) :
    sepolMedRules stale p = (runSteps (BuiltinStep.run stale) creations p).bind
      (runSteps (BuiltinStep.run stale) (patches ++ medRules)) := by
  rw [sepolMedRules, sepolMinRules_eq, Option.bind_assoc]
  congr 1
  funext created
  rw [runSteps_append]

theorem creations_present_after {stale other : UInt16 × UInt16} {p created last : Policy}
    (creating : runSteps (BuiltinStep.run stale) creations p = some created)
    (keeps : KeepsTables created last) :
    runSteps (BuiltinStep.run other) creations last = some last := by
  rcases creations_known creating with ⟨su, device⟩
  rw [sepolExists, ← keeps.types] at su device
  exact creations_present other su device

theorem perform_stale {call : PolicyCall} (notXperm : ¬IsXperm call) (stale other : UInt16 × UInt16)
    (p : Policy) : perform ⟨call, stale⟩ p = perform ⟨call, other⟩ p := by
  cases call with
  | xperm action s t c range => exact absurd trivial notXperm
  | rule action s t c perm => simp only [perform, execute]
  | attradd s a => simp only [perform, execute]
  | typeState action s => cases action <;> simp only [perform, execute]
  | typetrans s t c d o => simp only [perform, execute]

theorem builtinStep_stale {step : BuiltinStep}
    (notXperm : ∀ call, call ∈ step.calls → ¬IsXperm call) (stale other : UInt16 × UInt16)
    (p : Policy) : step.run stale p = step.run other p := by
  rw [BuiltinStep.run, BuiltinStep.run, runCalls, runCalls, runSteps_map, runSteps_map]
  apply runSteps_congr
  intro call selected state
  exact perform_stale (notXperm call (mem_calls_of_mem_selected selected)) stale other state

theorem creations_not_xperm : ∀ step, step ∈ creations → ∀ call, call ∈ step.calls →
    ¬IsXperm call := by
  decide +kernel

theorem creations_stale (stale other : UInt16 × UInt16) (p : Policy) :
    runSteps (BuiltinStep.run stale) creations p = runSteps (BuiltinStep.run other) creations p :=
  runSteps_congr fun step member =>
    builtinStep_stale (creations_not_xperm step member) stale other

/-- Rules that start with the creations, after rules whose other steps all come again in them. -/
theorem levels_absorb {items : List BuiltinStep}
    (members : ∀ step, step ∈ items → step ∈ patches ++ medRules) (p : Policy)
    (stale other another : UInt16 × UInt16) :
    (((runSteps (BuiltinStep.run stale) creations p).bind
        (runSteps (BuiltinStep.run stale) items)).bind (sepolMedRules other)).map patched =
      (sepolMedRules another p).map patched := by
  rw [sepolMedRules_eq another, creations_stale another stale]
  cases creating : runSteps (BuiltinStep.run stale) creations p with
  | none => simp only [Option.bind_none, Option.map_none]
  | some created =>
      have patchesItems := fun step member => medRules_patching step (members step member)
      have absorbed := builtinSteps_absorb scanRange_patches created medRules_patching members
        stale other another
      rw [Option.bind_some, Option.bind_some, ← absorbed]
      cases ran : runSteps (BuiltinStep.run stale) items created with
      | none => simp only [Option.bind_none, Option.map_none]
      | some last =>
          have keeps := keepsTables_builtinSteps scanRange_patches created patchesItems ran
          rw [Option.bind_some, Option.bind_some, sepolMedRules_eq,
            creations_present_after creating keeps, Option.bind_some]

/-- The minimal rules make no difference before the medium ones, which make no difference the
second time. -/
theorem medRules_absorb (p : Policy) (stale other another : UInt16 × UInt16) :
    ((sepolMinRules stale p).bind (sepolMedRules other)).map patched =
        (sepolMedRules another p).map patched ∧
      ((sepolMedRules stale p).bind (sepolMedRules other)).map patched =
        (sepolMedRules another p).map patched := by
  constructor
  · rw [sepolMinRules_eq]
    exact levels_absorb (fun step member => List.mem_append_left medRules member) p stale other
      another
  · rw [sepolMedRules_eq stale]
    exact levels_absorb (fun step member => member) p stale other another

/-! ## What the minimal rules take away -/

def IsDeny : PolicyCall → Prop
  | .rule .deny _ _ _ _ => True
  | _ => False

instance : DecidablePred IsDeny
  | .rule .deny _ _ _ _ => .isTrue trivial
  | .rule .allow _ _ _ _ => .isFalse id
  | .rule .auditallow _ _ _ _ => .isFalse id
  | .rule .auditdeny _ _ _ _ => .isFalse id
  | .xperm _ _ _ _ _ => .isFalse id
  | .attradd _ _ => .isFalse id
  | .typeState _ _ => .isFalse id
  | .typetrans _ _ _ _ _ => .isFalse id

def BuiltinStep.isSamsung : BuiltinStep → Bool
  | .ifExists source calls => decide (source = ascii "knox_system_app" ∧ calls = samsung)
  | _ => false

theorem deny_of_patches : patches.all (fun step =>
    step.isSamsung || step.calls.all fun call => decide (¬IsDeny call)) = true := by
  decide +kernel

theorem samsung_of_deny {step : BuiltinStep} (isPatch : step ∈ patches) {p : Policy}
    {call : PolicyCall} (selected : call ∈ step.selected p) (isDeny : IsDeny call) :
    sepolExists p (ascii "knox_system_app") = true ∧ call ∈ samsung := by
  have checked := List.all_eq_true.mp deny_of_patches step isPatch
  rcases Bool.or_eq_true_iff.mp checked with isSamsung | noDeny
  · cases step with
    | ifExists source calls =>
        rcases of_decide_eq_true isSamsung with ⟨rfl, rfl⟩
        rw [BuiltinStep.selected] at selected
        split at selected
        · rename_i found
          exact ⟨found, selected⟩
        · cases selected
    | call only => cases isSamsung
    | unlessExists source calls => cases isSamsung
    | ifVersion policyvers calls => cases isSamsung
  · have allowed := List.all_eq_true.mp noDeny call (mem_calls_of_mem_selected selected)
    exact absurd isDeny (of_decide_eq_true allowed)

theorem specified_of_mem_ruleMasks {db : Policydb} {s t c p : Option CString}
    {effect : AvtabSpecified} {key : AvtabKey} {mask : BitVec 32}
    (member : mask ∈ ruleMasks db s t c p effect key) : key.specified = effect := by
  rw [ruleMasks] at member
  cases found : ruleSymbols db s t c p with
  | error error =>
      rw [found] at member
      cases member
  | ok symbols =>
      rw [found] at member
      by_cases visited : key ∈ symbols.keys db effect
      · exact specified_of_mem_ruleKeys visited
      · simp [visited] at member

theorem deny_of_writtenBit {db : Policydb} {key : AvtabKey} {bit : Nat} {call : PolicyCall}
    (written : writtenBit db key bit call = some false) :
    IsDeny call ∧ key.specified = .allowed := by
  cases call with
  | rule action s t c perm =>
      rw [writtenBit] at written
      by_cases writes : (ruleMasks db s t c perm action.effect.1 key).any (·.getLsbD bit) = true
      · rw [if_pos writes] at written
        rcases List.any_eq_true.mp writes with ⟨mask, member, -⟩
        have kind := specified_of_mem_ruleMasks member
        cases action with
        | deny => exact ⟨trivial, kind⟩
        | allow => cases written
        | auditallow => cases written
        | auditdeny => cases written
      · rw [if_neg writes] at written
        cases written
  | xperm action s t c range => cases written
  | attradd s a => cases written
  | typeState action s => cases written
  | typetrans s t c d o => cases written

theorem keepsSymbols_of_patching {word : CString} {call : PolicyCall}
    (isPatch : PatchingCall word call) : KeepsSymbols call := by
  cases call with
  | rule action s t c perm => trivial
  | xperm action s t c range => trivial
  | attradd s a => trivial
  | typeState action s =>
      cases action with
      | create => cases isPatch
      | permissive => trivial
      | enforce => trivial
  | typetrans s t c d o => cases isPatch

def SamsungTakes (p : Policy) (key : AvtabKey) (bit : Nat) : Prop :=
  key.specified = .allowed ∧ sepolExists p (ascii "knox_system_app") = true ∧
    ∃ call, call ∈ samsung ∧ writtenBit p.toPolicydb key bit call = some false

theorem bit_builtinStep {created q next : Policy} (keeps : KeepsTables created q)
    {step : BuiltinStep} (isPatch : step ∈ patches) {stale : UInt16 × UInt16}
    (ran : step.run stale q = some next) {key : AvtabKey} (isAv : key.specified.isAv = true)
    {bit : Nat} (inside : bit < 32) :
    KeepsTables created next ∧ ((storedVector q.teAvtab key).getLsbD bit = true →
      (storedVector next.teAvtab key).getLsbD bit = true ∨ SamsungTakes created key bit) := by
  have keepsCalls : ∀ invocation,
      invocation ∈ ((step.selected q).map fun call => Invocation.mk call stale) →
      KeepsSymbols invocation.call := by
    intro invocation member
    rcases List.mem_map.mp member with ⟨call, selected, rfl⟩
    exact keepsSymbols_of_patching
      (patches_patching step isPatch call (mem_calls_of_mem_selected selected))
  rcases storedVector_runCalls keepsCalls ran isAv inside with ⟨kept, decides⟩
  refine ⟨keeps.transitive kept, fun isSet => ?_⟩
  rw [decides]
  cases isLast : (((step.selected q).map fun call => Invocation.mk call stale).filterMap
      fun invocation => writtenBit q.toPolicydb key bit invocation.call).getLast? with
  | none => exact Or.inl isSet
  | some value =>
      cases value with
      | true => exact Or.inl rfl
      | false =>
          right
          rcases List.mem_filterMap.mp (List.mem_of_getLast? isLast) with
            ⟨invocation, member, written⟩
          rcases List.mem_map.mp member with ⟨call, selected, rfl⟩
          rcases deny_of_writtenBit written with ⟨isDeny, isAllowed⟩
          rcases samsung_of_deny isPatch selected isDeny with ⟨known, isSamsung⟩
          rw [keeps.writtenBit_eq] at written
          rw [sepolExists, keeps.types] at known
          exact ⟨isAllowed, known, call, isSamsung, written⟩

theorem createDomain_teAvtab {p next : Policy} {d : CString} {result : Nat}
    (ran : createDomain p (some d) = some (next, result)) : next.teAvtab = p.teAvtab := by
  cases found : hashtabSearch p.pTypes.table d with
  | none => exact (createDomain_frame found ran).1
  | some type =>
      cases (createDomain_exists found).symm.trans ran
      rfl

theorem known_of_createDomain {p next : Policy} {d : CString} {result : Nat}
    (ran : createDomain p (some d) = some (next, result)) {name : CString} (other : name ≠ d)
    (known : sepolExists next name = true) : sepolExists p name = true := by
  cases found : hashtabSearch p.pTypes.table d with
  | some type =>
      cases (createDomain_exists found).symm.trans ran
      exact known
  | none =>
      rcases declareType_fresh found with ⟨table, permuted, declared⟩
      rcases Option.isSome_iff_exists.mp known with ⟨type, isType⟩
      have entry := (hashtabSearch_eq_some_iff _ _ _).mp isType
      rw [createDomain_types found ran, declared] at entry
      rcases List.mem_cons.mp (permuted.mem_iff.mp entry) with isNew | isOld
      · cases isNew
        exact absurd rfl other
      · rw [sepolExists, (hashtabSearch_eq_some_iff _ _ _).mpr isOld]
        rfl

theorem createUnlessExists_frame {stale : UInt16 × UInt16} {p next : Policy} {d : CString}
    (ran : (BuiltinStep.unlessExists d [.typeState .create (some d)]).run stale p = some next) :
    next.teAvtab = p.teAvtab ∧ ∀ name, name ≠ d → sepolExists next name = true →
      sepolExists p name = true := by
  by_cases present : sepolExists p d = true
  · rw [createUnlessExists_present stale present] at ran
    cases ran
    exact ⟨rfl, fun name _ known => known⟩
  · rw [BuiltinStep.run, BuiltinStep.selected, if_neg present] at ran
    rcases (runSteps_cons _ _ _ _).mp ran with ⟨created, performed, isNext⟩
    cases isNext
    rcases perform_eq_some performed with ⟨result, executed⟩
    exact ⟨createDomain_teAvtab executed, fun name other => known_of_createDomain executed other⟩

theorem creations_frame {stale : UInt16 × UInt16} {p created : Policy}
    (ran : runSteps (BuiltinStep.run stale) creations p = some created) :
    created.teAvtab = p.teAvtab ∧
      (sepolExists created (ascii "knox_system_app") = true →
        sepolExists p (ascii "knox_system_app") = true) := by
  rcases (runSteps_cons _ _ _ _).mp ran with ⟨first, createdSu, later⟩
  rcases (runSteps_cons _ _ _ _).mp later with ⟨second, createdDevice, isNext⟩
  cases isNext
  rcases createUnlessExists_frame createdSu with ⟨sameFirst, knownFirst⟩
  rcases createUnlessExists_frame createdDevice with ⟨sameSecond, knownSecond⟩
  exact ⟨sameSecond.trans sameFirst, fun known => knownFirst _ (by decide)
    (knownSecond _ (by decide) known)⟩

/-- The minimal rules take no access away from a rule, except that the rules for Samsung devices
take away what they deny. -/
theorem minRules_take_only_samsung {stale : UInt16 × UInt16} {p last : Policy}
    (ran : sepolMinRules stale p = some last) {key : AvtabKey}
    (isAv : key.specified.isAv = true) {bit : Nat} (inside : bit < 32)
    (isSet : (storedVector p.teAvtab key).getLsbD bit = true) :
    (storedVector last.teAvtab key).getLsbD bit = true ∨
      key.specified = .allowed ∧ sepolExists p (ascii "knox_system_app") = true ∧
        ∃ created call, runSteps (BuiltinStep.run stale) creations p = some created ∧
          call ∈ samsung ∧ writtenBit created.toPolicydb key bit call = some false := by
  rw [sepolMinRules_eq, Option.bind_eq_some_iff] at ran
  rcases ran with ⟨created, creating, patching⟩
  rcases creations_frame creating with ⟨sameRules, knownBefore⟩
  let Inv := fun q : Policy => KeepsTables created q ∧
    ((storedVector q.teAvtab key).getLsbD bit = true ∨ SamsungTakes created key bit)
  have preserved : ∀ step q next, Inv q → step ∈ patches → step.run stale q = some next →
      Inv next := by
    rintro step q next ⟨keeps, kept⟩ isPatch stepped
    rcases bit_builtinStep keeps isPatch stepped isAv inside with ⟨keepsNext, keptNext⟩
    refine ⟨keepsNext, ?_⟩
    rcases kept with stillSet | taken
    · exact keptNext stillSet
    · exact Or.inr taken
  have start : Inv created := ⟨KeepsTables.refl created, Or.inl (sameRules ▸ isSet)⟩
  rcases (runSteps_invariant preserved patches start
    (along_of_forall (fun step member _ => member) created) patching).2 with
    stillSet | ⟨isAllowed, known, call, isSamsung, written⟩
  · exact Or.inl stillSet
  · exact Or.inr ⟨isAllowed, knownBefore known, created, call, creating, isSamsung, written⟩

/-- A policy of a Samsung device in which `init` may read and open the files that are to be kept
from it. -/
def knoxDevice : Policy :=
  { shellPolicy 30 with
    pTypes :=
      { table :=
          { entries :=
              [(ascii "init", { value := 1, primary := true, flavor := .type }),
                (ascii "security_spota_file", { value := 2, primary := true, flavor := .type }),
                (ascii "knox_system_app", { value := 3, primary := true, flavor := .type })]
            distinct := by decide }
        nprim := 3 }
    pClasses :=
      { table := Hashtab.single (ascii "file")
          { value := 1
            permissions :=
              { entries := [(ascii "read", { value := 1 }), (ascii "open", { value := 2 })]
                distinct := by decide }
            comdatum := none
            constraints := []
            validatetrans := [] }
        nprim := 1 }
    typeValToName :=
      [some (ascii "init"), some (ascii "security_spota_file"), some (ascii "knox_system_app")]
    typeValToStruct :=
      [some (ascii "init"), some (ascii "security_spota_file"), some (ascii "knox_system_app")]
    teAvtab := (Avtab.empty 0).upsert (ruleKey 1 2 1 .allowed) { data := 0 } fun _ => { data := 3 }
    typeAttrMap :=
      [{ bits := [0], ascending := first_ascending },
        { bits := [1], ascending := second_ascending }, { bits := [2], ascending := by decide }]
    attrTypeMap :=
      [{ bits := [0], ascending := first_ascending },
        { bits := [1], ascending := second_ascending }, { bits := [2], ascending := by decide }] }

/-- Reading is taken away by a rule for Samsung devices, and opening is not. -/
theorem knoxDevice_after_minRules : ∃ last, sepolMinRules (0, 0) knoxDevice = some last ∧
    (storedVector last.teAvtab (ruleKey 1 2 1 .allowed)).getLsbD 0 = false ∧
    (∃ created call, runSteps (BuiltinStep.run (0, 0)) creations knoxDevice = some created ∧
      call ∈ samsung ∧
      writtenBit created.toPolicydb (ruleKey 1 2 1 .allowed) 0 call = some false) ∧
    (storedVector last.teAvtab (ruleKey 1 2 1 .allowed)).getLsbD 1 = true := by
  have runs : (sepolMinRules (0, 0) knoxDevice).any (fun last =>
      !(storedVector last.teAvtab (ruleKey 1 2 1 .allowed)).getLsbD 0) = true := by decide +kernel
  rcases (Option.any_eq_true _ _).mp runs with ⟨last, ran, cleared⟩
  have taken := Bool.eq_false_of_not_eq_true' cleared
  have isAv : (ruleKey 1 2 1 .allowed).specified.isAv = true := rfl
  have firstInside : 0 < 32 := by decide
  have secondInside : 1 < 32 := by decide
  refine ⟨last, ran, taken, ?_, ?_⟩
  · rcases minRules_take_only_samsung ran isAv firstInside (by decide +kernel) with
      stillSet | ⟨-, -, takes⟩
    · rw [taken] at stillSet
      cases stillSet
    · exact takes
  · rcases minRules_take_only_samsung ran isAv secondInside (by decide +kernel) with
      stillSet | ⟨-, -, created, call, creating, isSamsung, written⟩
    · exact stillSet
    · have noDeny : (runSteps (BuiltinStep.run (0, 0)) creations knoxDevice).all (fun created =>
          samsung.all fun call =>
            writtenBit created.toPolicydb (ruleKey 1 2 1 .allowed) 1 call != some false) = true := by
        decide +kernel
      rw [creating, Option.all_some, List.all_eq_true] at noDeny
      simpa [written] using noDeny call isSamsung

end SuBinary.Magiskpolicy
