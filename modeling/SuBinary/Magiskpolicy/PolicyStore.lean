import SuBinary.Foundation.Disk
import SuBinary.Magiskpolicy.NullNames
import SuBinary.Magiskpolicy.StatementIsolation

/-! # Storing the policy

`dump_policydb` opens its file without emptying it and writes the policy with a
single call of `write`.
-/

namespace SuBinary.Magiskpolicy

open SuBinary Sepol

variable {File : Type}

/-! ## The calls -/

/-- What the calls of a run return: whether `load_policydb` succeeds on a file and the policy
that it has loaded, what `policydb_to_image` makes of a policy, whether a file can be opened, and
how many bytes `write` takes, or that it fails. The uninitialised variables of `add_xperm_rule`
hold something in the statements and in the built-in rules. -/
structure StoreCalls where
  loads : CString → Bool
  loaded : Policy
  stale : Nat → UInt16 × UInt16
  staleBuiltin : UInt16 × UInt16
  image : Policy → Option (List Byte)
  opens : CString → Bool
  writes : CString → List Byte → Option Nat
  writes_le : ∀ filename bytes count, writes filename bytes = some count → count ≤ bytes.length

/-- The loaded policy after the operations of a run, which may crash. -/
def StoreCalls.patched (calls : StoreCalls) (argv : List CString) (beyond : List Byte) :
    Option Policy :=
  let ending := magiskpolicyMain { load := calls.loads, dump := fun _ => true } argv beyond
  let builtin : Option Policy :=
    if ending.minRules then sepolMinRules calls.staleBuiltin calls.loaded else some calls.loaded
  builtin.bind (runCalls (statementCalls calls.stale ending.steps))

structure Dumped (File : Type) where
  disk : Disk File
  delivered : List (File × List Byte)
  result : Nat

/-- A result of `write` in an `int`. -/
def asInt : Option Nat → Int
  | none => -1
  | some count => Int.bmod count (2 ^ 32)

section Dump

variable [DecidableEq File]

def dumpPolicydb (calls : StoreCalls) (p : Policy) (disk : Disk File) (filename : CString) :
    Dumped File :=
  match calls.image p with
  | none => { disk, delivered := [], result := 1 }
  | some data =>
      if !calls.opens filename then { disk, delivered := [], result := 1 }
      else
        let file := disk.resolve filename
        let written := calls.writes filename data
        let sent := data.take (written.getD 0)
        {
          disk := disk.write file sent
          delivered := if written.isSome then [(file, sent)] else []
          result := if asInt written < 0 then 1 else 0
        }

def StoreCalls.files (calls : StoreCalls) (p : Policy) (disk : Disk File) : PolicyFiles where
  load := calls.loads
  dump := fun filename => (dumpPolicydb calls p disk filename).result = 0

structure Stored (File : Type) where
  status : Option Nat
  disk : Disk File
  delivered : List (File × List Byte)

/-- The statements are executed before the policy is dumped. -/
def storePolicy (calls : StoreCalls) (disk : Disk File) (argv : List CString)
    (beyond : List Byte) : Stored File :=
  match calls.patched argv beyond with
  | none => { status := none, disk, delivered := [] }
  | some p =>
      let ending := magiskpolicyMain (calls.files p disk) argv beyond
      let dumped : Dumped File :=
        match ending.dumped with
        | none => { disk, delivered := [], result := 0 }
        | some filename => dumpPolicydb calls p disk filename
      { status := ending.status, disk := dumped.disk, delivered := dumped.delivered }

end Dump

/-! ## The name of the file -/

/-- A statement changes nothing before it or behind the second NUL after it, and
overwrites no NUL. -/
theorem dispatch_changes {base stop last : Nat} {memory after : Memory} {dispatched : Dispatched}
    (dispatches : dispatch base memory = some (dispatched, after)) (starts : base ≤ stop)
    (ends : memory.cells[stop]? = some 0) (later : stop < last)
    (endsAgain : memory.cells[last]? = some 0) :
    SameOutside base last memory.cells after.cells ∧ KeepsNuls memory.cells after.cells := by
  rcases exists_hasString starts ends with ⟨text, present, fits⟩
  rcases firstWord_or_spaces text with spaces | ⟨front, word, rest, first⟩
  · rw [dispatch_spaces present spaces] at dispatches
    cases dispatches
  · rcases first.dispatch_eq present with ⟨middle, confined, -, -, isDispatch⟩
    have keeps := keepsNuls_of_sameOutside present confined.cells
    have same : SameOutside base last memory.cells middle.cells :=
      confined.cells.mono (Nat.le_refl _) (by omega)
    rw [isDispatch] at dispatches
    cases isKeyword : keywords.lookup word with
    | none =>
        rw [isKeyword] at dispatches
        cases dispatches
        exact ⟨same, keeps⟩
    | some entry =>
        rcases entry with ⟨layout, action⟩
        simp only [isKeyword] at dispatches
        rcases Option.map_eq_some_iff.mp dispatches with ⟨⟨parsed, end'⟩, ran, isResult⟩
        cases isResult
        have room := first.length_le
        rcases exists_hasString (by omega : base + word.length + 1 ≤ last)
          (keeps last endsAgain) with ⟨argument, given, argumentFits⟩
        rcases parsePattern_parses isKeyword argument
          (middle.touch (base + front.length) (word.length + 1)) _ given with
          ⟨final, isParsed, parserConfined⟩
        rw [isParsed] at ran
        cases ran
        exact ⟨same.trans (parserConfined.cells.mono (by omega) argumentFits),
          keeps.trans (keepsNuls_of_sameOutside given parserConfined.cells)⟩

/-- The statement is followed by another NUL, and a string lies apart from both. -/
structure Apart (cells : List Byte) (file rule : Argument) : Prop where
  ends : cells[rule.address + rule.text.length]? = some 0
  endsAgain : ∃ last, rule.address + rule.text.length < last ∧ cells[last]? = some 0 ∧
    (file.address + file.text.length < rule.address ∨ last ≤ file.address)

theorem Apart.keeps {cells after : List Byte} {file rule : Argument}
    (apart : Apart cells file rule) (keeps : KeepsNuls cells after) : Apart after file rule := by
  rcases apart.endsAgain with ⟨last, later, endsAgain, beside⟩
  exact ⟨keeps _ apart.ends, last, later, keeps _ endsAgain, beside⟩

theorem runRules_hasString {file : Argument} (rules : List Argument) :
    ∀ {cells last : List Byte}, (∀ rule, rule ∈ rules → Apart cells file rule) →
      HasString cells file.address file.text → (runRules rules cells).2 = some last →
        HasString last file.address file.text := by
  induction rules with
  | nil =>
      intro cells last apart present ran
      cases ran
      exact present
  | cons rule rules induction =>
      intro cells last apart present ran
      have ruleApart := apart rule (List.mem_cons_self ..)
      rcases ruleApart.endsAgain with ⟨stop, later, endsAgain, beside⟩
      rw [runRules] at ran
      cases dispatches : dispatch rule.address { cells, touched := [] } with
      | none =>
          rw [dispatches] at ran
          cases ran
      | some result =>
          rcases result with ⟨dispatched, after⟩
          rw [dispatches] at ran
          rcases dispatch_changes dispatches (Nat.le_add_right _ _) ruleApart.ends later
            endsAgain with ⟨same, keeps⟩
          exact induction
            (fun other member => (apart other (List.mem_cons_of_mem _ member)).keeps keeps)
            (same.hasString beside present) ran

theorem readOptions_outfile (arguments : List Argument) : ∀ {options result : Options},
    readOptions arguments options = some result →
      result.outfile = options.outfile ∨
        ∃ before option file after earlier later,
          arguments = before ++ option :: file :: after ∧ result.outfile = some file ∧
          result.rules = options.rules ++ (earlier ++ later) ∧
          earlier.Sublist before ∧ later.Sublist after := by
  intro options result read
  fun_induction readOptions arguments options with
  | case1 options =>
      cases read
      exact Or.inl rfl
  | case2 argument rest options dashes isLive induction =>
      apply (induction read).imp id
      rintro ⟨before, option, file, after, earlier, later, rfl, isFile, isRules, one, two⟩
      exact ⟨argument :: before, option, file, after, earlier, later, rfl, isFile, isRules,
        one.cons _, two⟩
  | case3 argument rest options dashes notLive isMinimal induction =>
      apply (induction read).imp id
      rintro ⟨before, option, file, after, earlier, later, rfl, isFile, isRules, one, two⟩
      exact ⟨argument :: before, option, file, after, earlier, later, rfl, isFile, isRules,
        one.cons _, two⟩
  | case4 => cases read
  | case5 argument options dashes notLive notMinimal isLoad infile rest induction =>
      apply (induction read).imp id
      rintro ⟨before, option, file, after, earlier, later, rfl, isFile, isRules, one, two⟩
      exact ⟨argument :: infile :: before, option, file, after, earlier, later, rfl, isFile,
        isRules, (one.cons _).cons _, two⟩
  | case6 => cases read
  | case7 argument options dashes notLive notMinimal notLoad isSave outfile rest induction =>
      apply Or.inr
      rcases induction read with isFile |
        ⟨before, option, file, after, earlier, later, rfl, isFile, isRules, one, two⟩
      · rcases readOptions_rules _ read with ⟨rules, isRules, sublist⟩
        exact ⟨[], argument, outfile, rest, [], rules, rfl, isFile, isRules,
          List.Sublist.refl _, sublist⟩
      · exact ⟨argument :: outfile :: before, option, file, after, earlier, later, rfl, isFile,
          isRules, (one.cons _).cons _, two⟩
  | case8 => cases read
  | case9 argument rest options noDashes induction =>
      apply (induction read).imp id
      rintro ⟨before, option, file, after, earlier, later, rfl, isFile, isRules, one, two⟩
      refine ⟨argument :: before, option, file, after, argument :: earlier, later, rfl, isFile,
        ?_, one.cons_cons _, two⟩
      rw [isRules, List.append_assoc]
      rfl

theorem argvCells_append (argv : List CString) (beyond more : List Byte) :
    argvCells argv (beyond ++ more) = argvCells argv beyond ++ more := by
  rw [argvCells, argvCells, List.append_assoc]

/-- A statement without words of its own reads on in the next string, but that is not
the name of the output file. -/
theorem outfile_intact {argv : List CString} (strings : ∀ text, text ∈ argv → 0 ∉ text)
    {beyond last : List Byte} {options : Options} {file : Argument}
    (read : readOptions (placeFrom 0 argv).tail Options.start = some options)
    (isFile : options.outfile = some file)
    (ran : (runRules options.rules (argvCells argv (beyond ++ [0]))).2 = some last) :
    stringAt last file.address = file.text := by
  rcases readOptions_outfile _ read with noFile |
    ⟨before, option, other, after, earlier, later, isArguments, isOther, isRules, one, two⟩
  · rw [isFile] at noFile
    cases noFile
  rw [isFile, Option.some.injEq] at isOther
  subst isOther
  -- The options lie in memory one after the other, and a NUL is behind all of them.
  have placed : Placed (argvCells argv (beyond ++ [0])) (before ++ option :: file :: after) := by
    rw [← isArguments]
    exact (placed_placeFrom _ argv strings _ 0 rfl).1.sublist (List.tail_sublist _)
  have placedBefore : Placed (argvCells argv beyond) (before ++ option :: file :: after) := by
    rw [← isArguments]
    exact (placed_placeFrom _ argv strings _ 0 rfl).1.sublist (List.tail_sublist _)
  have lastNul : (argvCells argv (beyond ++ [0]))[(argvCells argv beyond).length]? = some 0 := by
    rw [argvCells_append, List.getElem?_concat_length]
  rcases List.pairwise_append.mp placed.ordered with ⟨-, behind, beforeOption⟩
  rcases List.pairwise_cons.mp behind with ⟨optionFirst, behindOption⟩
  have fileFirst := (List.pairwise_cons.mp behindOption).1
  have optionEnds := (placed.present option (by simp)).ends
  apply HasString.stringAt_eq
  refine runRules_hasString options.rules ?_ (placed.present file (by simp)) ran
  intro rule member
  rw [isRules] at member
  rcases List.mem_append.mp ((List.mem_append.mp member).resolve_left List.not_mem_nil) with
    isEarlier | isLater
  · have isBefore := one.subset isEarlier
    have first := beforeOption rule isBefore option (List.mem_cons_self ..)
    have next := optionFirst file (List.mem_cons_self ..)
    exact ⟨(placed.present rule (by simp [isBefore])).ends, _, by omega, optionEnds,
      Or.inr (by omega)⟩
  · have isAfter := two.subset isLater
    have bound := (placedBefore.present rule (by simp [isAfter])).bound
    exact ⟨(placed.present rule (by simp [isAfter])).ends, _, bound, lastNul,
      Or.inl (fileFirst rule isAfter)⟩

/-! ## The end of the program -/

/-- The file that the policy is dumped to. `--live` takes the place of `--save`. -/
def destination (options : Options) : Option CString :=
  if options.live then some selinuxLoad else options.outfile.map Argument.text

/-- The run with these options comes to the end of the statements, and no operation crashes. -/
structure ComesToEnd (calls : StoreCalls) (argv : List CString) (beyond : List Byte)
    (options : Options) (p : Policy) : Prop where
  enough : 2 ≤ argv.length
  read : readOptions (placeFrom 0 argv).tail Options.start = some options
  loads : calls.loads ((options.infile.map Argument.text).getD selinuxPolicy) = true
  survives : (runRules options.rules (argvCells argv beyond)).2.isSome
  patched : calls.patched argv beyond = some p

section Main

variable [DecidableEq File] {calls : StoreCalls} {disk : Disk File} {argv : List CString}
  {beyond : List Byte} {options : Options} {p : Policy}

theorem storePolicy_comesToEnd
    (success : (storePolicy calls disk argv beyond).status = some 0) :
    ∃ options p, ComesToEnd calls argv beyond options p := by
  rw [storePolicy] at success
  cases isPatched : calls.patched argv beyond with
  | none =>
      rw [isPatched] at success
      cases success
  | some p =>
      rw [isPatched] at success
      dsimp only at success
      rw [magiskpolicyMain] at success
      split at success
      · cases success
      · rename_i enough
        split at success
        · cases success
        · rename_i options read
          dsimp only at success
          split at success
          · cases success
          · rename_i loads
            refine ⟨options, p, by omega, read, by simpa [StoreCalls.files] using loads, ?_,
              isPatched⟩
            split at success
            · cases success
            · rename_i cells isLast
              rw [isLast]
              rfl

theorem ComesToEnd.storePolicy_eq (comes : ComesToEnd calls argv (beyond ++ [0]) options p)
    (strings : ∀ text, text ∈ argv → 0 ∉ text) :
    storePolicy calls disk argv (beyond ++ [0]) =
      let dumped : Dumped File :=
        match destination options with
        | none => { disk, delivered := [], result := 0 }
        | some filename => dumpPolicydb calls p disk filename
      { status := some (if dumped.result = 0 then 0 else 1)
        disk := dumped.disk
        delivered := dumped.delivered } := by
  rcases Option.isSome_iff_exists.mp comes.survives with ⟨last, ran⟩
  have isName : options.outfile.map (fun file => stringAt last file.address) =
      options.outfile.map Argument.text := by
    cases isFile : options.outfile with
    | none => rfl
    | some file =>
        rw [Option.map_some, Option.map_some, outfile_intact strings comes.read isFile ran]
  have isEnding : (magiskpolicyMain (calls.files p disk) argv (beyond ++ [0])).dumped =
        destination options ∧
      (magiskpolicyMain (calls.files p disk) argv (beyond ++ [0])).status =
        some (if (destination options).any fun file => !(calls.files p disk).dump file then 1
          else 0) := by
    have enough := comes.enough
    have loads := comes.loads
    simp only [magiskpolicyMain, Nat.not_lt.mpr enough, if_false, comes.read, StoreCalls.files,
      loads, Bool.not_true, Bool.false_eq_true, ran, isName]
    exact ⟨rfl, rfl⟩
  rw [storePolicy, comes.patched]
  dsimp only
  rw [isEnding.1, isEnding.2]
  cases destination options with
  | none => rfl
  | some filename => simp [StoreCalls.files]

end Main

/-! ## What success promises -/

section Promise

variable [DecidableEq File]

/-- The whole image has been handed over to the file. -/
def Receives (image : Option (List Byte)) (stored : Stored File) (file : File) : Prop :=
  ∃ bytes, image = some bytes ∧ (file, bytes) ∈ stored.delivered

/-- After a run that reports success, each destination that was asked for has received
the policy, and the output file contains it and nothing else. -/
def SuccessStores (calls : StoreCalls) (disk : Disk File) (argv : List CString)
    (beyond : List Byte) : Prop :=
  let stored := storePolicy calls disk argv beyond
  let image := (calls.patched argv beyond).bind calls.image
  stored.status = some 0 → ∀ options,
    readOptions (placeFrom 0 argv).tail Options.start = some options →
      (options.live = true → Receives image stored (disk.resolve selinuxLoad)) ∧
      ∀ file, options.outfile = some file →
        Receives image stored (disk.resolve file.text) ∧
        stored.disk.content (disk.resolve file.text) = image

/-- If the file can be opened and `write` takes something, then it takes everything;
and with `--save` there is no `--live` for another file, and the file is no longer
than the image. -/
def WritesWhole (calls : StoreCalls) (p : Policy) (disk : Disk File) (options : Options) : Prop :=
  ∀ filename image count, destination options = some filename → calls.image p = some image →
    calls.opens filename = true → calls.writes filename image = some count →
    0 ≤ asInt (some count) →
      count = image.length ∧ ∀ file, options.outfile = some file →
        (options.live = true → disk.resolve file.text = disk.resolve selinuxLoad) ∧
        (disk.bytes (disk.resolve file.text)).length ≤ image.length

variable {calls : StoreCalls} {p : Policy} {disk : Disk File} {filename : CString}

theorem dumpPolicydb_success (success : (dumpPolicydb calls p disk filename).result = 0) :
    ∃ image count, calls.image p = some image ∧ calls.opens filename = true ∧
      calls.writes filename image = some count ∧ 0 ≤ asInt (some count) := by
  rw [dumpPolicydb] at success
  split at success
  · cases success
  · rename_i image isImage
    split at success
    · cases success
    · rename_i opens
      dsimp only at success
      cases isCount : calls.writes filename image with
      | none =>
          rw [isCount] at success
          cases success
      | some count =>
          rw [isCount] at success
          refine ⟨image, count, isImage, by simpa using opens, isCount, ?_⟩
          by_contra negative
          rw [if_pos (not_le.mp negative)] at success
          cases success

theorem dumpPolicydb_eq {image : List Byte} {count : Nat} (isImage : calls.image p = some image)
    (opens : calls.opens filename = true) (isCount : calls.writes filename image = some count)
    (accepted : 0 ≤ asInt (some count)) :
    dumpPolicydb calls p disk filename =
      { disk := disk.write (disk.resolve filename) (image.take count)
        delivered := [(disk.resolve filename, image.take count)]
        result := 0 } := by
  have notNegative : ¬asInt (some count) < 0 := not_lt.mpr accepted
  simp only [dumpPolicydb, isImage, opens, isCount, notNegative, Bool.not_true,
    Bool.false_eq_true, if_false, Option.getD_some, Option.isSome_some, if_true]

omit [DecidableEq File] in
theorem destination_resolve {options : Options} (isName : destination options = some filename)
    (same : ∀ file, options.outfile = some file →
      options.live = true → disk.resolve file.text = disk.resolve selinuxLoad) :
    (options.live = true → disk.resolve selinuxLoad = disk.resolve filename) ∧
      ∀ file, options.outfile = some file → disk.resolve file.text = disk.resolve filename := by
  rw [destination] at isName
  split at isName
  · rename_i isLive
    cases isName
    exact ⟨fun _ => rfl, fun file isFile => same file isFile isLive⟩
  · rename_i notLive
    refine ⟨fun isLive => absurd isLive notLive, fun file isFile => ?_⟩
    rw [isFile] at isName
    cases isName
    rfl

variable {argv : List CString} {beyond : List Byte} {options : Options} {image : List Byte}
  {count : Nat}

def writtenTo (disk : Disk File) (target : File) (bytes : List Byte) : Stored File where
  status := some 0
  disk := disk.write target bytes
  delivered := [(target, bytes)]

theorem receives_writtenTo_iff {target file : File} {bytes : List Byte} :
    Receives (some image) (writtenTo disk target bytes) file ↔ file = target ∧ bytes = image := by
  constructor
  · rintro ⟨other, isOther, delivered⟩
    cases isOther
    rcases Prod.mk.inj (List.mem_singleton.mp delivered) with ⟨isTarget, isBytes⟩
    exact ⟨isTarget, isBytes.symm⟩
  · rintro ⟨rfl, rfl⟩
    exact ⟨bytes, rfl, List.mem_singleton_self _⟩

/-- Each destination has the policy exactly when all of it was written and the output
file is the one that was written to and had nothing behind the image. -/
theorem writtenTo_stores_iff (isName : destination options = some filename)
    (short : count ≤ image.length) :
    ((options.live = true → Receives (some image)
        (writtenTo disk (disk.resolve filename) (image.take count)) (disk.resolve selinuxLoad)) ∧
      ∀ file, options.outfile = some file →
        Receives (some image) (writtenTo disk (disk.resolve filename) (image.take count))
          (disk.resolve file.text) ∧
        (writtenTo disk (disk.resolve filename) (image.take count)).disk.content
          (disk.resolve file.text) = some image) ↔
      count = image.length ∧ ∀ file, options.outfile = some file →
        (options.live = true → disk.resolve file.text = disk.resolve selinuxLoad) ∧
        (disk.bytes (disk.resolve file.text)).length ≤ image.length := by
  simp only [receives_writtenTo_iff]
  constructor
  · rintro ⟨toKernel, toFile⟩
    have whole : image.take count = image := by
      rw [destination] at isName
      split at isName
      · rename_i isLive
        exact (toKernel isLive).2
      · rcases Option.map_eq_some_iff.mp isName with ⟨file, isFile, -⟩
        exact (toFile file isFile).1.2
    have isCount := (List.take_eq_self_iff image).mp whole
    refine ⟨by omega, fun file isFile => ?_⟩
    rcases toFile file isFile with ⟨⟨isTarget, -⟩, contains⟩
    refine ⟨fun isLive => isTarget.trans (toKernel isLive).1.symm, ?_⟩
    rw [isTarget, writtenTo, Disk.write_content, Option.some.injEq, whole] at contains
    rw [isTarget]
    exact overwrite_eq_iff.mp contains
  · rintro ⟨rfl, fits⟩
    rcases destination_resolve isName fun file isFile => (fits file isFile).1 with
      ⟨isKernel, isFileName⟩
    rw [List.take_length]
    refine ⟨fun isLive => ⟨isKernel isLive, rfl⟩,
      fun file isFile => ⟨⟨isFileName file isFile, rfl⟩, ?_⟩⟩
    have room := (fits file isFile).2
    rw [isFileName file isFile] at room ⊢
    rw [writtenTo, Disk.write_content, overwrite_eq_iff.mpr room]

theorem ComesToEnd.storePolicy_written (comes : ComesToEnd calls argv (beyond ++ [0]) options p)
    (strings : ∀ text, text ∈ argv → 0 ∉ text) (isName : destination options = some filename)
    (isImage : calls.image p = some image) (opens : calls.opens filename = true)
    (isCount : calls.writes filename image = some count) (accepted : 0 ≤ asInt (some count)) :
    storePolicy calls disk argv (beyond ++ [0]) =
      writtenTo disk (disk.resolve filename) (image.take count) := by
  rw [comes.storePolicy_eq strings, isName]
  dsimp only
  rw [dumpPolicydb_eq isImage opens isCount accepted]
  rfl

theorem ComesToEnd.success (comes : ComesToEnd calls argv (beyond ++ [0]) options p)
    (strings : ∀ text, text ∈ argv → 0 ∉ text) (isName : destination options = some filename)
    (success : (storePolicy calls disk argv (beyond ++ [0])).status = some 0) :
    (dumpPolicydb calls p disk filename).result = 0 := by
  rw [comes.storePolicy_eq strings, isName] at success
  by_contra failed
  simp [failed] at success

/-- A run that reports success has stored the policy exactly when, once the statements
are done, the one call of `write` takes the whole image, and the output file is what it
writes to and has nothing behind the image. -/
theorem success_stores_iff (calls : StoreCalls) (disk : Disk File) {argv : List CString}
    (strings : ∀ text, text ∈ argv → 0 ∉ text) (beyond : List Byte) :
    SuccessStores calls disk argv (beyond ++ [0]) ↔
      ∀ options p, ComesToEnd calls argv (beyond ++ [0]) options p →
        WritesWhole calls p disk options := by
  constructor
  · intro stores options p comes filename image count isName isImage opens isCount accepted
    have short : count ≤ image.length := calls.writes_le filename image count isCount
    rw [SuccessStores, comes.storePolicy_written strings isName isImage opens isCount accepted,
      comes.patched, Option.bind_some, isImage] at stores
    exact (writtenTo_stores_iff isName short).mp (stores rfl options comes.read)
  · intro conditions success options read
    rcases storePolicy_comesToEnd success with ⟨other, p, comes⟩
    obtain rfl : other = options := Option.some.inj (comes.read.symm.trans read)
    cases isName : destination other with
    | none =>
        rw [destination] at isName
        split at isName
        · cases isName
        · rename_i notLive
          refine ⟨fun isLive => absurd isLive notLive, fun file isFile => ?_⟩
          rw [isFile] at isName
          cases isName
    | some filename =>
        rcases dumpPolicydb_success (comes.success strings isName success) with
          ⟨image, count, isImage, opens, isCount, accepted⟩
        have short : count ≤ image.length := calls.writes_le filename image count isCount
        rw [comes.storePolicy_written strings isName isImage opens isCount accepted,
          comes.patched, Option.bind_some, isImage]
        exact (writtenTo_stores_iff isName short).mpr
          (conditions other p comes filename image count isName isImage opens isCount accepted)

end Promise

/-! ## Runs with a policy of three bytes -/

theorem takesAtMost_le (most : Nat) (_filename : CString) (bytes : List Byte) (count : Nat)
    (isCount : some (min most bytes.length) = some count) : count ≤ bytes.length := by
  cases isCount
  exact Nat.min_le_right _ _

def takesAtMost (most : Nat) : StoreCalls where
  loads := fun _ => true
  loaded := shellPolicy 30
  stale := fun _ => (0, 0)
  staleBuiltin := (0, 0)
  image := fun _ => some [1, 2, 3]
  opens := fun _ => true
  writes := fun _ bytes => some (min most bytes.length)
  writes_le := takesAtMost_le most

def diskWith (old : List Byte) : Disk CString where
  resolve := id
  content := fun file => if file = ascii "out" then some old else none

theorem success_stores_new_file :
    SuccessStores (takesAtMost 3) (diskWith [])
      [ascii "magiskpolicy", ascii "--save", ascii "out", ascii "create su"] ([] ++ [0]) := by
  apply (success_stores_iff (takesAtMost 3) (diskWith []) (by decide) []).mpr
  rintro options p ⟨-, read, -, -, -⟩
  cases read
  rintro filename image count isName isImage - isCount -
  cases isName
  cases isImage
  cases isCount
  refine ⟨rfl, fun file isFile => ?_⟩
  cases isFile
  exact ⟨nofun, by decide +kernel⟩

/-- An operation that crashes leaves nothing to be stored. -/
example :
    (storePolicy (takesAtMost 3) (diskWith [])
      [ascii "magiskpolicy", ascii "--save", ascii "out", ascii "create *"] [0]).status = none := by
  decide +kernel

/-- Two bytes of three, a longer file from before, and a file besides the kernel: each
of these runs reports success. -/
theorem success_without_store :
    ¬SuccessStores (takesAtMost 2) (diskWith [])
      [ascii "magiskpolicy", ascii "--save", ascii "out"] ([] ++ [0]) ∧
    ¬SuccessStores (takesAtMost 3) (diskWith [9, 9, 9, 9, 9])
      [ascii "magiskpolicy", ascii "--save", ascii "out"] ([] ++ [0]) ∧
    ¬SuccessStores (takesAtMost 3) (diskWith [])
      [ascii "magiskpolicy", ascii "--save", ascii "out", ascii "--live"] ([] ++ [0]) := by
  refine ⟨?_, ?_, ?_⟩
  · intro stores
    have contains := ((stores (by decide +kernel) _ rfl).2 _ rfl).2
    revert contains
    decide +kernel
  · intro stores
    have contains := ((stores (by decide +kernel) _ rfl).2 _ rfl).2
    revert contains
    decide +kernel
  · intro stores
    have contains := ((stores (by decide +kernel) _ rfl).2 _ rfl).2
    revert contains
    decide +kernel

end SuBinary.Magiskpolicy
