import SuBinary.Su.ArgvSafety

/-! # The command line that is executed

`allow` builds the vector for `execvp` in front of the words that are left, in the
array that it got them from.
-/

namespace SuBinary.Su

open SuBinary Getopt

/-! ## Vectors of words -/

def HasVector (slot : Int → Option CString) (start : Int) (vector : List CString) : Prop :=
  ∀ index : Nat, index ≤ vector.length → slot (start + index) = vector[index]?

theorem hasVector_drop (words : List CString) (elsewhere : Int → Option CString) {first : Nat}
    (bound : first ≤ words.length) :
    HasVector (Argv.ofWords words elsewhere).slot first (words.drop first) := by
  intro index inside
  rw [List.length_drop] at inside
  have isInside : (0 : Int) ≤ first + index ∧ (first + index : Int) ≤ words.length := by omega
  have isIndex : (first + index : Int).toNat = first + index := by omega
  simp only [Argv.ofWords, isInside, and_self, if_true, isIndex, List.getElem?_drop]

theorem HasVector.cons {slot : Int → Option CString} {start : Int} {vector : List CString}
    (isVector : HasVector slot start vector) (word : CString) :
    HasVector (Function.update slot (start - 1) (some word)) (start - 1) (word :: vector) := by
  intro index inside
  cases index with
  | zero => simp
  | succ index =>
      have next : start - 1 + ((index + 1 : Nat) : Int) = start + index := by omega
      have other : start + (index : Int) ≠ start - 1 := by omega
      rw [next, Function.update_of_ne other, List.getElem?_cons_succ]
      exact isVector index (by simpa using inside)

/-! ## The words behind the options -/

def skipDash : List CString → List CString
  | [] => []
  | word :: rest => if word = ascii "-" then rest else word :: rest

/-- Step over the name of the user, which is any word but `--`. -/
def skipLogin : List CString → List CString
  | [] => []
  | word :: rest => if word = ascii "--" then word :: rest else rest

def skipDashes : List CString → List CString
  | [] => []
  | word :: rest => if word = ascii "--" then rest else word :: rest

/-- The words from `optind` on, once the options and `[-] [LOGIN] [--]` are read. -/
def argumentWords (words : List CString) (options : SuRequest) : List CString :=
  skipDashes (skipLogin (skipDash (words.drop options.optind)))

/-- A login shell is asked for with `-l` or with `-`. -/
def asksForLogin (words : List CString) (options : SuRequest) : Bool :=
  options.login || (words.drop options.optind).head? = some (ascii "-")

def requestedProgram (command shell : Option CString) (rest : List CString) :
    CString × List CString :=
  match command, shell, rest with
  | some command, shell, _ => (shell.getD defaultShell, ascii "-c" :: command :: rest)
  | none, some shell, _ => (shell, rest)
  | none, none, [] => (defaultShell, [])
  | none, none, program :: arguments => (program, arguments)

def IsBasename (path base : CString) : Prop :=
  47 ∉ base ∧ (path = base ∨ ∃ directory, path = directory ++ 47 :: base)

theorem isBasename_basename (path : CString) : IsBasename path (basename path) := by
  have split := List.takeWhile_append_dropWhile (p := (· ≠ (47 : Byte))) (l := path.reverse)
  have isPath : path = (path.reverse.dropWhile (· ≠ 47)).reverse ++ basename path := by
    rw [basename, ← List.reverse_append, split, List.reverse_reverse]
  constructor
  · intro member
    have passes := List.mem_takeWhile_imp (List.mem_reverse.mp member)
    simp at passes
  · cases dropped : path.reverse.dropWhile (· ≠ 47) with
    | nil =>
        rw [dropped] at isPath
        exact Or.inl isPath
    | cons byte rest =>
        have isSlash : byte = 47 := by
          have := List.head?_dropWhile_not (· ≠ (47 : Byte)) path.reverse
          rw [dropped] at this
          simpa using this
        rw [dropped, List.reverse_cons, List.append_assoc, isSlash] at isPath
        exact Or.inr ⟨rest.reverse, isPath⟩

/-- The program and its vector, with a `-` in front of the name for a login shell. -/
structure ExecutesProgram (execution : Execution) (slot : Int → Option CString) (login : Bool)
    (program : CString × List CString) : Prop where
  binary : execution.binary = program.1
  vector : ∃ base, IsBasename execution.binary base ∧
    HasVector slot execution.start ((if login then ascii "-" ++ base else base) :: program.2)

/-- What is executed is what the options have come to. -/
structure ExecutesOptions (words : List CString) (execution : Execution)
    (slot : Int → Option CString) (options : SuRequest) : Prop where
  parses : parseOptions words = .ok options
  runs : ExecutesProgram execution slot (asksForLogin words options)
    (requestedProgram options.command options.shell (argumentWords words options))

/-! ## Reading the words -/

def HoldsWords (words : List CString) (argv : Argv) : Prop :=
  ∀ index : Nat, index < words.length → argv.slot index = words[index]?

theorem HoldsWords.of_slot {words : List CString} {argv after : Argv}
    (holds : HoldsWords words argv) (same : after.slot = argv.slot) : HoldsWords words after := by
  rw [HoldsWords, same]
  exact holds

section Words

variable {words : List CString} {env : SuEnvironment} {request : SuRequest} {argv : Argv}
  {result : SuRequest × Argv}

theorem drop_of_slot (holds : HoldsWords words argv) {index : Nat} (inside : index < words.length)
    {word : CString} (here : argv.slot index = some word) :
    words.drop index = word :: words.drop (index + 1) := by
  rw [holds index inside, List.getElem?_eq_getElem inside, Option.some.injEq] at here
  rw [List.drop_eq_getElem_cons inside, here]

theorem takeDash_skips (holds : HoldsWords words argv) (argc : request.argc = words.length)
    (ran : takeDash request argv = .ok result) :
    words.drop result.1.optind = skipDash (words.drop request.optind) ∧
      result.1.login = asksForLogin words request := by
  rcases takeDash_cases ran with ⟨past, rfl⟩ |
    ⟨word, inside, here, ⟨isDash, rfl⟩ | ⟨notDash, rfl⟩⟩
  · have nothing : words.drop request.optind = [] := List.drop_eq_nil_of_le (argc ▸ past)
    simp [asksForLogin, nothing, skipDash]
  · simp [asksForLogin, drop_of_slot holds (argc ▸ inside) here, skipDash, isDash]
  · simp [asksForLogin, drop_of_slot holds (argc ▸ inside) here, skipDash, notDash]

theorem setUser_login {word : CString} {next : SuRequest}
    (found : setUser env word request = .ok next) : next.login = request.login := by
  unfold setUser at found
  grind

theorem takeUser_skips (holds : HoldsWords words argv) (argc : request.argc = words.length)
    (ran : takeUser env request argv = .ok result) :
    words.drop result.1.optind = skipLogin (words.drop request.optind) ∧
      result.1.login = request.login := by
  rcases takeUser_cases ran with ⟨past, rfl⟩ |
    ⟨word, inside, here, ⟨isDashes, rfl⟩ | ⟨isName, next, found, rfl⟩⟩
  · have nothing : words.drop request.optind = [] := List.drop_eq_nil_of_le (argc ▸ past)
    simp [nothing, skipLogin]
  · simp [drop_of_slot holds (argc ▸ inside) here, skipLogin, isDashes]
  · simp [drop_of_slot holds (argc ▸ inside) here, skipLogin, isName, (setUser_ok found).2.2.2,
      setUser_login found]

theorem takeDashes_skips (holds : HoldsWords words argv) (argc : request.argc = words.length)
    (ran : takeDashes request argv = .ok result) :
    words.drop result.1.optind = skipDashes (words.drop request.optind) ∧
      result.1.login = request.login := by
  rcases takeDashes_cases ran with ⟨past, rfl⟩ |
    ⟨word, inside, here, ⟨isDashes, rfl⟩ | ⟨notDashes, rfl⟩⟩
  · have nothing : words.drop request.optind = [] := List.drop_eq_nil_of_le (argc ▸ past)
    simp [nothing, skipDashes]
  · simp [drop_of_slot holds (argc ▸ inside) here, skipDashes, isDashes]
  · simp [drop_of_slot holds (argc ▸ inside) here, skipDashes, notDashes]

theorem Reached.skips {start : Argv} {ended : Execution × Argv}
    (run : Reached env words start ended) (holds : HoldsWords words start) :
    words.drop run.last.1.optind = argumentWords words run.parsed ∧
      run.last.1.login = asksForLogin words run.parsed := by
  have argc := (parsed_of_parseOptions run.options).argc
  have first := takeDash_ok run.dash
  have second := (takeUser_ok run.named).1
  have checked := holds.of_slot run.checkedSlots
  have dashed := checked.of_slot first.slots
  have named := dashed.of_slot second.slots
  have dashedArgc := first.sameArgc.trans argc
  have userArgc := second.sameArgc.trans dashedArgc
  rcases takeDash_skips checked argc run.dash with ⟨dashWords, dashLogin⟩
  rcases takeUser_skips dashed dashedArgc run.named with ⟨userWords, userLogin⟩
  rcases takeDashes_skips named userArgc run.dashes with ⟨lastWords, lastLogin⟩
  rw [lastWords, userWords, dashWords, lastLogin, userLogin, dashLogin]
  exact ⟨rfl, rfl⟩

end Words

/-! ## Building the vector -/

section Execute

variable {request : SuRequest} {argv : Argv}

theorem Chooses.vector {rest : List CString} {chosen : (Option CString × Int) × Argv}
    (chooses : Chooses request argv chosen) {binary : CString} (isBinary : chosen.1.1 = some binary)
    (left : HasVector argv.slot request.optind rest) :
    binary = (requestedProgram request.command request.shell rest).1 ∧
      HasVector chosen.2.slot chosen.1.2
        (requestedProgram request.command request.shell rest).2 := by
  have first := left 0 (Nat.zero_le _)
  rw [Nat.cast_zero, add_zero] at first
  cases chooses with
  | command text hasCommand =>
      have isProgram : requestedProgram request.command request.shell rest =
          (binary, ascii "-c" :: text :: rest) := by
        simp [requestedProgram, hasCommand, show request.shell = some binary from isBinary]
      have isStart : (request.optind : Int) - 1 - 1 = request.optind - 2 := by omega
      have both := (left.cons text).cons (ascii "-c")
      rw [isStart] at both
      rw [isProgram]
      exact ⟨rfl, both⟩
  | shell path noCommand hasShell =>
      cases isBinary
      have isProgram : requestedProgram request.command request.shell rest = (binary, rest) := by
        simp [requestedProgram, noCommand, hasShell]
      rw [isProgram]
      exact ⟨rfl, left⟩
  | nothing noCommand noShell noWord =>
      cases isBinary
      cases rest with
      | cons program arguments => cases noWord.symm.trans first
      | nil =>
          have isProgram : requestedProgram request.command request.shell [] =
              (defaultShell, []) := by
            simp [requestedProgram, noCommand, noShell]
          rw [isProgram]
          exact ⟨rfl, left⟩
  | word program noCommand noShell here =>
      cases isBinary
      cases rest with
      | nil => cases here.symm.trans first
      | cons given arguments =>
          cases here.symm.trans first
          have isProgram : requestedProgram request.command request.shell (binary :: arguments) =
              (binary, arguments) := by
            simp [requestedProgram, noCommand, noShell]
          rw [isProgram]
          refine ⟨rfl, fun index inside => ?_⟩
          have early : index + 1 ≤ (binary :: arguments).length := Nat.succ_le_succ inside
          have next := left (index + 1) early
          have isNext : (request.optind : Int) + 1 + index =
              request.optind + (index + 1 : Nat) := by omega
          rw [isNext]
          exact next

theorem allow_vector {rest : List CString} {result : Execution × Argv}
    (left : HasVector argv.slot request.optind rest) (ran : allow request argv = .ok result) :
    ExecutesProgram result.1 result.2.slot request.login
      (requestedProgram request.command request.shell rest) := by
  rcases allow_ok ran with ⟨chosen, allows⟩
  rcases allows.choice.vector allows.binary left with ⟨isBinary, isVector⟩
  refine ⟨isBinary, basename result.1.binary, isBasename_basename _, ?_⟩
  rw [allows.slots, allows.start]
  exact isVector.cons _

end Execute

/-! ## The whole run -/

theorem parseOptions_nil : parseOptions [] = .ok { newRequest [] with optind := 1 } :=
  (optionLoop []).run_of_finish rfl

/-- Without a command and a shell, the name replaces the word at `optind`. -/
theorem allow_writes_word {request : SuRequest} {argv : Argv} {result : Execution × Argv}
    (noCommand : request.command = none) (noShell : request.shell = none) {word : CString}
    (here : argv.slot request.optind = some word) (ran : allow request argv = .ok result) :
    (request.optind : Int) ∈ result.2.writes := by
  rcases allow_ok ran with ⟨chosen, allows⟩
  have isStart : chosen.1.2 = request.optind + 1 := by
    cases allows.choice with
    | command text hasCommand => cases noCommand.symm.trans hasCommand
    | shell path _ hasShell => cases noShell.symm.trans hasShell
    | nothing _ _ noWord => cases here.symm.trans noWord
    | word program _ _ _ => rfl
  rw [allows.writes, isStart, add_sub_cancel_right]
  exact List.mem_cons_self ..

theorem Reached.hasVector {env : SuEnvironment} {words : List CString}
    {elsewhere : Int → Option CString} {execution : Execution} {argv : Argv}
    (run : Reached env words (Argv.ofWords words elsewhere) (execution, argv))
    (inside : ∀ index, index ∈ argv.writes → 0 ≤ index ∧ index ≤ words.length) :
    HasVector run.last.2.slot run.last.1.optind (words.drop run.last.1.optind) := by
  have parsed := parsed_of_parseOptions run.options
  have advances := run.advances
  have bound := advances.bound parsed.bound
  have slots : run.last.2.slot = (Argv.ofWords words elsewhere).slot :=
    advances.slots.trans run.checkedSlots
  cases words with
  | nil =>
      -- `optind` is behind the null pointer, and a program there would be overwritten.
      have isParsed : run.parsed = { newRequest [] with optind := 1 } :=
        Except.ok.inj (run.options.symm.trans parseOptions_nil)
      have forward := advances.forward
      rw [isParsed] at forward
      have isOptind : run.last.1.optind = 1 :=
        Nat.le_antisymm bound forward
      have noCommand : run.last.1.command = none := by rw [advances.command, isParsed]; rfl
      have noShell : run.last.1.shell = none := by rw [advances.shell, isParsed]; rfl
      intro index inVector
      obtain rfl : index = 0 := by simpa using inVector
      rw [List.drop_nil, List.getElem?_nil, Nat.cast_zero, add_zero]
      cases here : run.last.2.slot run.last.1.optind with
      | none => rfl
      | some word =>
          have written := inside _ (allow_writes_word noCommand noShell here run.allowed)
          rw [isOptind] at written
          exact absurd written.2 (by decide)
  | cons word words =>
      rw [slots]
      exact hasVector_drop _ _ (by simp at bound ⊢; omega)

/-! ## Nothing crashes -/

theorem bind_error {first : SuM α} {next : α → SuM β} {argv : Argv} {ending : Ending}
    (ran : (first >>= next) argv = .error ending) :
    first argv = .error ending ∨
      ∃ value middle, first argv = .ok (value, middle) ∧ next value middle = .error ending := by
  cases step : first argv with
  | error other =>
      simp only [bind, StateT.bind, step, Except.bind] at ran
      cases ran
      exact Or.inl rfl
  | ok pair =>
      simp only [bind, StateT.bind, step, Except.bind] at ran
      exact Or.inr ⟨pair.1, pair.2, rfl, ran⟩

theorem pure_not_error {value : α} {argv : Argv} {ending : Ending} :
    (pure value : SuM α) argv ≠ .error ending := nofun

def Runs (run : SuM α) : Prop := ∀ argv, ∃ result, run argv = .ok result

theorem pure_runs (value : α) : Runs (pure value) := fun argv => ⟨(value, argv), rfl⟩

theorem Runs.bind {first : SuM α} {next : α → SuM β} (one : Runs first)
    (two : ∀ value, Runs (next value)) : Runs (first >>= next) := by
  intro argv
  rcases one argv with ⟨⟨value, middle⟩, step⟩
  rcases two value middle with ⟨result, rest⟩
  exact ⟨result, bind_ok.mpr ⟨value, middle, step, rest⟩⟩

theorem Runs.not_error {run : SuM α} (runs : Runs run) {argv : Argv} {ending : Ending} :
    run argv ≠ .error ending := by
  rcases runs argv with ⟨result, isResult⟩
  rw [isResult]
  exact nofun

theorem readArgv_runs (index : Int) : Runs (readArgv index) := fun _ => ⟨_, rfl⟩

theorem writeArgv_runs (index : Int) (value : CString) : Runs (writeArgv index value) :=
  fun _ => ⟨_, rfl⟩

theorem getCommand_runs (request : SuRequest) : Runs (getCommand request) := by
  rw [getCommand]
  split
  · exact pure_runs _
  · exact pure_runs _
  · refine (readArgv_runs _).bind fun word => ?_
    cases word with
    | none => exact pure_runs _
    | some word => exact pure_runs _

theorem logArguments_runs (request : SuRequest) (argc : Int) :
    Runs (logArguments request argc) := by
  rw [logArguments]
  generalize ([0, 1, 2, 3, 4, 5] : List Int) = args
  induction args with
  | nil => exact pure_runs _
  | cons arg args induction =>
      refine Runs.bind ?_ fun _ => induction
      dsimp only
      split
      · exact (readArgv_runs _).bind fun _ => pure_runs _
      · exact pure_runs _

theorem chooseBinary_runs (request : SuRequest) : Runs (chooseBinary request) := by
  rw [chooseBinary]
  split
  · exact (writeArgv_runs _ _).bind fun _ => (writeArgv_runs _ _).bind fun _ => pure_runs _
  · exact pure_runs _
  · refine (readArgv_runs _).bind fun word => ?_
    cases word with
    | none => exact pure_runs _
    | some word => exact (readArgv_runs _).bind fun _ => pure_runs _

/-- There is no binary only for a command without a shell. -/
theorem Chooses.noShell {request : SuRequest} {argv : Argv}
    {chosen : (Option CString × Int) × Argv} (chooses : Chooses request argv chosen)
    (noBinary : chosen.1.1 = none) : request.command.isSome ∧ request.shell = none := by
  cases chooses with
  | command text hasCommand => exact ⟨by simp [hasCommand], noBinary⟩
  | shell path noCommand hasShell => cases noBinary
  | nothing noCommand noShell noWord => cases noBinary
  | word program noCommand noShell here => cases noBinary

section Survives

variable {words : List CString} {env : SuEnvironment} {request : SuRequest} {argv : Argv}

theorem HoldsWords.readWord (holds : HoldsWords words argv) {index : Nat}
    (inside : index < words.length) {next : CString → SuM α} {ending : Ending}
    (failed : (readWord index >>= next) argv = .error ending) :
    ∃ after, HoldsWords words after ∧ next words[index] after = .error ending := by
  have here : argv.slot index = some words[index] := by
    rw [holds index inside, List.getElem?_eq_getElem inside]
  have read := readWord_ok.mpr ⟨here, rfl⟩
  rcases bind_error failed with failed | ⟨word, middle, isRead, later⟩
  · rw [read] at failed
    cases failed
  · rw [read] at isRead
    cases isRead
    exact ⟨argv.afterRead index, holds, later⟩

theorem isRunDaemon_runs (holds : HoldsWords words argv) (inside : 1 < words.length)
    {ending : Ending} : isRunDaemon argv ≠ .error ending := by
  intro failed
  rw [isRunDaemon] at failed
  rcases holds.readWord inside failed with ⟨one, holds, failed⟩
  split at failed
  · exact pure_not_error failed
  · rcases holds.readWord inside failed with ⟨two, holds, failed⟩
    split at failed
    · exact pure_not_error failed
    · rcases holds.readWord inside failed with ⟨three, holds, failed⟩
      split at failed
      · exact pure_not_error failed
      · exact pure_not_error failed

theorem startDaemon_survives (holds : HoldsWords words argv) :
    startDaemon env words.length argv ≠ .error .crashes := by
  intro crashes
  rw [startDaemon] at crashes
  split at crashes
  · rename_i two
    have inside : 1 < words.length := by omega
    rcases bind_error crashes with failed | ⟨isAsked, middle, -, later⟩
    · exact isRunDaemon_runs holds inside failed
    · split at later
      · split at later
        · cases later
        · cases later
      · exact pure_not_error later
  · exact pure_not_error crashes

theorem takeDash_runs (holds : HoldsWords words argv) (argc : request.argc = words.length)
    {ending : Ending} : takeDash request argv ≠ .error ending := by
  intro failed
  rw [takeDash] at failed
  split at failed
  · rename_i inside
    rcases holds.readWord (argc ▸ inside) failed with ⟨after, -, later⟩
    split at later
    · exact pure_not_error later
    · exact pure_not_error later
  · exact pure_not_error failed

theorem takeUser_error (holds : HoldsWords words argv) (argc : request.argc = words.length)
    {ending : Ending} (failed : takeUser env request argv = .error ending) :
    ∃ word, (words.drop request.optind).head? = some word ∧ word ≠ ascii "--" ∧
      setUser env word request = .error ending := by
  rw [takeUser] at failed
  split at failed
  · rename_i inside
    rcases holds.readWord (argc ▸ inside) failed with ⟨after, holds, later⟩
    split at later
    · rename_i isName
      rcases holds.readWord (argc ▸ inside) later with ⟨last, -, later⟩
      refine ⟨_, ?_, isName, ?_⟩
      · rw [List.head?_drop, List.getElem?_eq_getElem]
      · cases found : setUser env words[request.optind] request with
        | error other =>
            simp only [found] at later
            cases later
            rfl
        | ok next =>
            simp only [found] at later
            exact absurd later pure_not_error
    · exact absurd later pure_not_error
  · exact absurd failed pure_not_error

theorem takeDashes_runs (holds : HoldsWords words argv) (argc : request.argc = words.length)
    {ending : Ending} : takeDashes request argv ≠ .error ending := by
  intro failed
  rw [takeDashes] at failed
  split at failed
  · rename_i inside
    rcases holds.readWord (argc ▸ inside) failed with ⟨after, -, later⟩
    split at later
    · exact pure_not_error later
    · exact pure_not_error later
  · exact pure_not_error failed

theorem setUser_error {word : CString} {ending : Ending}
    (failed : setUser env word request = .error ending) : ending = .exits 1 := by
  rw [setUser] at failed
  grind

theorem optarg_isSome {scan next : Scan} {option : Byte} {optarg : Option CString}
    (finds : Finds suOptions words scan option optarg next) (takes : option ∈ ascii "cs") :
    optarg.isSome := by
  cases finds with
  | flag nextShort listed =>
      have isShort : suOptions.short option = some true := if_pos takes
      rw [isShort] at listed
      cases listed
  | attached => rfl
  | separate => rfl
  | longFlag nextLong listed bare =>
      have all : ∀ entry, entry ∈ longOpts → entry.value ∈ ascii "cs" →
          entry.takesArgument = true := by decide
      rw [all _ (findLong_suOptions listed).1 takes] at bare
      cases bare
  | longAttached => rfl
  | longSeparate => rfl

def HasShell (request : SuRequest) : Prop := request.command.isSome → request.shell.isSome

theorem hasShell_again {state next : Scan × SuRequest} (hasShell : HasShell state.2)
    (turn : (optionLoop words).body state = .again next) : HasShell next.2 := by
  rcases optionTurn_again turn with ⟨option, optarg, finds, applied⟩
  rcases next with ⟨scan, request⟩
  unfold applyOption at applied
  split at applied
  · cases applied
    exact fun _ => rfl
  · cases applied
  · cases applied
    exact hasShell
  · cases applied
    exact hasShell
  · cases applied
    exact hasShell
  · cases applied
    exact fun _ => optarg_isSome finds (by decide)
  · cases applied
  · cases applied
  · cases applied

theorem parseOptions_survives (words : List CString) :
    (∀ request, parseOptions words = .ok request → HasShell request) ∧
      parseOptions words ≠ .error .crashes := by
  let Post := fun result : Except Ending SuRequest =>
    (∀ request, result = .ok request → HasShell request) ∧ result ≠ .error .crashes
  let Invariant := fun state : Scan × SuRequest => HasShell state.2
  have start : Invariant (⟨1, []⟩, newRequest words) := nofun
  have holds : Post (parseOptions words) :=
    (optionLoop words).run_invariant (fun _ _ hasShell turn => hasShell_again hasShell turn)
      (fun state result hasShell turn => ?_) _ start
  · exact holds
  have body : optionTurn words state = .finish result := turn
  unfold optionTurn at body
  split at body
  · cases body
    refine ⟨fun request isRequest => ?_, nofun⟩
    cases isRequest
    exact hasShell
  · cases body
    exact ⟨nofun, by simp⟩
  · split at body
    · rename_i ending applied
      cases body
      refine ⟨nofun, ?_⟩
      rintro isCrash
      cases isCrash
      unfold applyOption at applied
      split at applied
      all_goals cases applied
    · cases body

theorem allow_runs (hasShell : HasShell request) {ending : Ending} :
    allow request argv ≠ .error ending := by
  intro failed
  rw [allow] at failed
  rcases bind_error failed with failed | ⟨⟨binary, start⟩, chosen, choice, later⟩
  · exact (chooseBinary_runs request).not_error failed
  cases binary with
  | none =>
      have noShell := (chooses_of_chooseBinary choice).noShell rfl
      exact absurd (hasShell noShell.1) (by simp [noShell.2])
  | some binary =>
      rcases bind_error later with failed | ⟨_, _, -, later⟩
      · exact (getCommand_runs request).not_error failed
      rcases bind_error later with failed | ⟨_, _, -, later⟩
      · exact (logArguments_runs request start).not_error failed
      rcases bind_error later with failed | ⟨_, _, -, later⟩
      · exact (writeArgv_runs _ _).not_error failed
      · exact pure_not_error later

end Survives

section Whole

variable {env : SuEnvironment} {words : List CString} {argv : Argv}

inductive Stops (env : SuEnvironment) (words : List CString) (argv : Argv) (ending : Ending) : Prop
  | daemon (stops : startDaemon env words.length argv = .error ending)
  | options (stops : parseOptions words = .error ending)
  | user (options : SuRequest) (parses : parseOptions words = .ok options) (request : SuRequest)
      (word : CString) (isWord : (skipDash (words.drop options.optind)).head? = some word)
      (isName : word ≠ ascii "--") (refused : setUser env word request = .error ending)
  | denied (untrusted : env.fromInit = false) (isDenial : ending = .denies)

theorem stops_of_suMain (holds : HoldsWords words argv) {ending : Ending}
    (stopped : suMain env words false argv = .error ending) : Stops env words argv ending := by
  rw [suMain] at stopped
  rcases bind_error stopped with failed | ⟨_, checked, check, later⟩
  · exact .daemon failed
  have checkedHolds := holds.of_slot (startDaemon_ok check).1
  cases options : parseOptions words with
  | error other =>
      simp only [options] at later
      cases later
      exact .options options
  | ok parsed =>
      simp only [options, Bool.false_eq_true, if_false] at later
      have argc := (parsed_of_parseOptions options).argc
      have hasShell := (parseOptions_survives words).1 parsed options
      rcases bind_error later with failed | ⟨dashed, dashedArgv, dash, later⟩
      · exact absurd failed (takeDash_runs checkedHolds argc)
      have first := takeDash_ok dash
      have dashedHolds := checkedHolds.of_slot first.slots
      have dashedArgc : dashed.argc = words.length := first.sameArgc.trans argc
      rcases bind_error later with failed | ⟨user, userArgv, named, later⟩
      · rcases takeUser_error dashedHolds dashedArgc failed with ⟨word, isWord, isName, refused⟩
        rw [(takeDash_skips checkedHolds argc dash).1] at isWord
        exact .user parsed options dashed word isWord isName refused
      have second := (takeUser_ok named).1
      have userHolds := dashedHolds.of_slot second.slots
      have userArgc : user.argc = words.length := second.sameArgc.trans dashedArgc
      rcases bind_error later with failed | ⟨last, lastArgv, dashes, later⟩
      · exact absurd failed (takeDashes_runs userHolds userArgc)
      have third := (takeDashes_ok dashes).1
      have sameCommand : last.command = parsed.command :=
        third.command.trans (second.command.trans first.command)
      have sameShell : last.shell = parsed.shell :=
        third.shell.trans (second.shell.trans first.shell)
      split at later
      · refine absurd later (allow_runs ?_)
        rw [HasShell, sameCommand, sameShell]
        exact hasShell
      · rename_i untrusted
        rcases bind_error later with failed | ⟨_, _, -, denied⟩
        · exact absurd failed (getCommand_runs _).not_error
        · cases denied
          exact .denied (by simpa using untrusted) rfl

theorem suMain_survives (holds : HoldsWords words argv) :
    suMain env words false argv ≠ .error .crashes := by
  intro crashes
  cases stops_of_suMain holds crashes with
  | daemon stops => exact startDaemon_survives holds stops
  | options stops => exact (parseOptions_survives words).2 stops
  | user options parses request word isWord isName refused => cases setUser_error refused
  | denied untrusted isDenial => cases isDenial

end Whole

theorem holdsWords_ofWords (words : List CString) (elsewhere : Int → Option CString) :
    HoldsWords words (Argv.ofWords words elsewhere) := by
  intro index early
  have isInside : (0 : Int) ≤ index ∧ (index : Int) ≤ words.length := by omega
  simp only [Argv.ofWords, isInside, and_self, if_true, Int.toNat_natCast]

theorem Reached.executes {env : SuEnvironment} {words : List CString}
    {elsewhere : Int → Option CString} {result : Execution × Argv}
    (run : Reached env words (Argv.ofWords words elsewhere) result)
    (inside : ∀ index, index ∈ result.2.writes → 0 ≤ index ∧ index ≤ words.length) :
    ExecutesOptions words result.1 result.2.slot run.parsed := by
  rcases run.skips (holdsWords_ofWords words elsewhere) with ⟨isRest, isLogin⟩
  have left := run.hasVector inside
  rw [isRest] at left
  have runs := allow_vector left run.allowed
  rw [run.advances.command, run.advances.shell, isLogin] at runs
  exact ⟨run.options, runs⟩

/-- `su -s /bin/mksh - 0 -- a b` runs `/bin/mksh` with the vector `-mksh a b`. -/
example :
    (suMain rootOnly (["su", "-s", "/bin/mksh", "-", "0", "--", "a", "b"].map ascii) false
      (Argv.ofWords (["su", "-s", "/bin/mksh", "-", "0", "--", "a", "b"].map ascii)
        fun _ => none)).toOption.map (fun result =>
          (result.1.binary, [5, 6, 7, 8].map result.2.slot, result.1.start)) =
      some (ascii "/bin/mksh", [some (ascii "-mksh"), some (ascii "a"), some (ascii "b"), none],
        5) := by
  decide +kernel

end SuBinary.Su
