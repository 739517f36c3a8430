import SuBinary.Su.OptionOrder

/-! # The program that was asked for

The last `-s` and the last `-c` of the words name a shell and a command. The command is not
run by that shell when it comes behind it.
-/

namespace SuBinary.Su

open SuBinary Getopt

/-! ## What the words ask for -/

def Setting.commandText : Setting → Option CString
  | .command text => some text
  | _ => none

def Setting.shellPath : Setting → Option CString
  | .shell path => some path
  | _ => none

def lastCommand (settings : List Setting) : Option CString :=
  settings.reverse.findSome? Setting.commandText

def lastShell (settings : List Setting) : Option CString :=
  settings.reverse.findSome? Setting.shellPath

/-- The program, its arguments and the kind of shell are those of the options and of what
follows `[-] [LOGIN] [--]`. -/
def ExecutesRequest (settings : List Setting) (rest : List CString) (execution : Execution)
    (slot : Int → Option CString) : Prop :=
  ExecutesProgram execution slot
    (decide (.login ∈ settings) || decide (rest.head? = some (ascii "-")))
    (requestedProgram (lastCommand settings) (lastShell settings)
      (skipDashes (skipLogin (skipDash rest))))

/-- No command comes behind the last shell, or that is the default. -/
def ShellStands (settings : List Setting) : Prop :=
  ∀ before path after, settings = before ++ .shell path :: after →
    (∀ other, .shell other ∉ after) → (∃ text, .command text ∈ after) → path = defaultShell

/-! ## The last of the settings -/

section Last

variable {settings : List Setting}

theorem lastCommand_concat (settings : List Setting) (setting : Setting) :
    lastCommand (settings ++ [setting]) = setting.commandText.or (lastCommand settings) := by
  cases setting <;> simp [lastCommand, Setting.commandText, List.findSome?_cons]

theorem lastCommand_eq_none_iff :
    lastCommand settings = none ↔ ∀ text, .command text ∉ settings := by
  rw [lastCommand, List.findSome?_eq_none_iff]
  constructor
  · intro none text member
    cases none _ (List.mem_reverse.mpr member)
  · intro noCommand setting member
    cases setting with
    | command text => exact absurd (List.mem_reverse.mp member) (noCommand text)
    | shell path => rfl
    | login => rfl
    | preserve => rfl

theorem exists_of_lastCommand {text : CString} (isLast : lastCommand settings = some text) :
    ∃ text, .command text ∈ settings := by
  by_contra none
  cases (lastCommand_eq_none_iff.mpr (not_exists.mp none)).symm.trans isLast

theorem lastShell_eq_none_iff : lastShell settings = none ↔ ∀ path, .shell path ∉ settings := by
  rw [lastShell, List.findSome?_eq_none_iff]
  constructor
  · intro none path member
    cases none _ (List.mem_reverse.mpr member)
  · intro noShell setting member
    cases setting with
    | command text => rfl
    | shell path => exact absurd (List.mem_reverse.mp member) (noShell path)
    | login => rfl
    | preserve => rfl

theorem split_of_lastShell {path : CString} (isLast : lastShell settings = some path) :
    ∃ before after, settings = before ++ .shell path :: after ∧ ∀ other, .shell other ∉ after := by
  rcases List.findSome?_eq_some_iff.mp isLast with ⟨after, setting, before, split, isPath, none⟩
  cases setting with
  | command text => cases isPath
  | login => cases isPath
  | preserve => cases isPath
  | shell other =>
      cases isPath
      refine ⟨before.reverse, after.reverse, ?_, fun other member => ?_⟩
      · rw [← List.reverse_reverse settings, split]
        simp
      · cases none _ (List.mem_reverse.mp member)

theorem split_unique {before after other behind : List Setting} {path otherPath : CString}
    (same : before ++ Setting.shell path :: after = other ++ .shell otherPath :: behind)
    (last : ∀ path, .shell path ∉ after) (otherLast : ∀ path, .shell path ∉ behind) :
    path = otherPath ∧ after = behind := by
  rcases List.append_eq_append_iff.mp same with ⟨gap, -, isGap⟩ | ⟨gap, -, isGap⟩
  · cases gap with
    | nil =>
        cases isGap
        exact ⟨rfl, rfl⟩
    | cons setting gap =>
        have inside : .shell otherPath ∈ after := by
          rw [(List.cons.inj isGap).2]
          simp
        exact absurd inside (last otherPath)
  · cases gap with
    | nil =>
        cases isGap
        exact ⟨rfl, rfl⟩
    | cons setting gap =>
        have inside : .shell path ∈ behind := by
          rw [(List.cons.inj isGap).2]
          simp
        exact absurd inside (otherLast path)

end Last

/-! ## What the options come to -/

section Applied

variable {settings : List Setting}

theorem foldl_command (settings : List Setting) (chosen : Chosen) :
    (settings.foldl Chosen.apply chosen).command =
      (lastCommand settings).or chosen.command := by
  induction settings using List.reverseRecOn with
  | nil => rfl
  | append_singleton settings setting induction =>
      rw [List.foldl_append, lastCommand_concat]
      cases setting with
      | command text => rfl
      | shell path => exact induction
      | login => exact induction
      | preserve => exact induction

theorem foldl_login (settings : List Setting) (chosen : Chosen) :
    (settings.foldl Chosen.apply chosen).login =
      (chosen.login || decide (.login ∈ settings)) := by
  induction settings generalizing chosen with
  | nil => simp
  | cons setting rest induction =>
      rw [List.foldl_cons, induction]
      cases setting <;> simp [Chosen.apply]

theorem foldl_shell_keeps (noShell : ∀ path, .shell path ∉ settings)
    (noCommand : ∀ text, .command text ∉ settings) (chosen : Chosen) :
    (settings.foldl Chosen.apply chosen).shell = chosen.shell := by
  induction settings generalizing chosen with
  | nil => rfl
  | cons setting rest induction =>
      have later := fun chosen => induction
        (fun path member => noShell path (List.mem_cons_of_mem _ member))
        (fun text member => noCommand text (List.mem_cons_of_mem _ member)) chosen
      rw [List.foldl_cons, later]
      cases setting with
      | command text => exact absurd List.mem_cons_self (noCommand text)
      | shell path => exact absurd List.mem_cons_self (noShell path)
      | login => rfl
      | preserve => rfl

/-- A command that no shell follows is run by the default one. -/
theorem foldl_shell_default (noShell : ∀ path, .shell path ∉ settings)
    (isCommand : ∃ text, .command text ∈ settings) (chosen : Chosen) :
    (settings.foldl Chosen.apply chosen).shell = some defaultShell := by
  induction settings generalizing chosen with
  | nil =>
      rcases isCommand with ⟨text, member⟩
      cases member
  | cons setting rest induction =>
      have noShellLater : ∀ path, .shell path ∉ rest :=
        fun path member => noShell path (List.mem_cons_of_mem _ member)
      rw [List.foldl_cons]
      by_cases later : ∃ text, .command text ∈ rest
      · exact induction noShellLater later _
      · rw [foldl_shell_keeps noShellLater (not_exists.mp later)]
        rcases isCommand with ⟨text, member⟩
        rcases List.mem_cons.mp member with rfl | member
        · rfl
        · exact absurd ⟨text, member⟩ later

theorem chosen_shell_of_plain (noCommand : ∀ text, .command text ∉ settings) :
    (settings.foldl Chosen.apply Chosen.start).shell = lastShell settings := by
  cases isLast : lastShell settings with
  | none => exact foldl_shell_keeps (lastShell_eq_none_iff.mp isLast) noCommand _
  | some path =>
      rcases split_of_lastShell isLast with ⟨before, after, rfl, last⟩
      rw [List.foldl_append, List.foldl_cons, foldl_shell_keeps last]
      · rfl
      · exact fun text member =>
          noCommand text (List.mem_append_right _ (List.mem_cons_of_mem _ member))

theorem chosen_shell_iff (isCommand : ∃ text, .command text ∈ settings) :
    (settings.foldl Chosen.apply Chosen.start).shell.getD defaultShell =
        (lastShell settings).getD defaultShell ↔ ShellStands settings := by
  cases isLast : lastShell settings with
  | none =>
      have noShell := lastShell_eq_none_iff.mp isLast
      rw [foldl_shell_default noShell isCommand]
      refine iff_of_true rfl fun before path after split => ?_
      exact absurd (split ▸ List.mem_append_right _ List.mem_cons_self) (noShell path)
  | some path =>
      rcases split_of_lastShell isLast with ⟨before, after, rfl, last⟩
      rw [List.foldl_append, List.foldl_cons]
      by_cases later : ∃ text, .command text ∈ after
      · rw [foldl_shell_default last later]
        constructor
        · intro isDefault other otherPath behind split otherLast _
          rw [← (split_unique split last otherLast).1]
          exact isDefault.symm
        · exact fun stands => (stands before path after rfl last later).symm
      · rw [foldl_shell_keeps last (not_exists.mp later)]
        refine iff_of_true rfl fun other otherPath behind split otherLast laterToo => ?_
        rw [(split_unique split last otherLast).2] at later
        exact absurd laterToo later

theorem chosen_program_iff (settings : List Setting) (arguments : List CString) :
    let chosen := settings.foldl Chosen.apply Chosen.start
    let asked := requestedProgram (lastCommand settings) (lastShell settings) arguments
    ((requestedProgram chosen.command chosen.shell arguments).1 = asked.1 →
        ShellStands settings) ∧
      (ShellStands settings →
        requestedProgram chosen.command chosen.shell arguments = asked) := by
  dsimp only
  rw [foldl_command]
  cases isLast : lastCommand settings with
  | none =>
      have noCommand := lastCommand_eq_none_iff.mp isLast
      rw [chosen_shell_of_plain noCommand]
      refine ⟨fun _ before path after split _ => ?_, fun _ => rfl⟩
      rintro ⟨text, member⟩
      have inside : .command text ∈ settings :=
        split ▸ List.mem_append_right _ (List.mem_cons_of_mem _ member)
      exact absurd inside (noCommand text)
  | some text =>
      have shell := chosen_shell_iff (exists_of_lastCommand isLast)
      exact ⟨shell.mp, fun stands => Prod.ext (shell.mpr stands) rfl⟩

end Applied

/-! ## Words with good options -/

section Words

variable {words : List CString}

theorem optarg_isNone {scan next : Scan} {option : Byte} {optarg : Option CString}
    (finds : Finds suOptions words scan option optarg next) (flag : option ∉ ascii "cs") :
    optarg = none := by
  have noShort : suOptions.short option ≠ some true := by
    intro listed
    change shortOptions option = some true at listed
    rw [shortOptions, if_neg flag] at listed
    split at listed <;> cases listed
  have noLong : ∀ entry, entry ∈ longOpts → entry.value = option →
      entry.takesArgument = false := by
    have all : ∀ entry, entry ∈ longOpts → entry.value ∉ ascii "cs" →
        entry.takesArgument = false := by decide
    rintro entry member rfl
    exact all entry member flag
  cases finds with
  | flag => rfl
  | attached nextShort listed => exact absurd listed noShort
  | separate nextShort listed => exact absurd listed noShort
  | longFlag => rfl
  | longAttached nextLong listed takes =>
      rw [noLong _ (findLong_suOptions listed).1 rfl] at takes
      cases takes
  | longSeparate nextLong listed takes =>
      rw [noLong _ (findLong_suOptions listed).1 rfl] at takes
      cases takes

theorem exists_setting {scan next : Scan} {option : Byte} {optarg : Option CString}
    (finds : Finds suOptions words scan option optarg next) {request after : SuRequest}
    (applied : applyOption request option optarg = .ok after) :
    ∃ setting, Sets (option, optarg) setting := by
  unfold applyOption at applied
  split at applied
  · rcases Option.isSome_iff_exists.mp (optarg_isSome finds (by decide)) with ⟨text, rfl⟩
    exact ⟨_, .command text⟩
  · cases applied
  · rw [optarg_isNone finds (by decide)]
    exact ⟨_, .login⟩
  · rw [optarg_isNone finds (by decide)]
    exact ⟨_, .keep⟩
  · rw [optarg_isNone finds (by decide)]
    exact ⟨_, .preserve⟩
  · rcases Option.isSome_iff_exists.mp (optarg_isSome finds (by decide)) with ⟨path, rfl⟩
    exact ⟨_, .shell path⟩
  · cases applied
  · cases applied
  · cases applied

theorem exists_reads {request : SuRequest} (parses : parseOptions words = .ok request) :
    ∃ settings rest, Reads words settings rest := by
  have general : ∀ state : Scan × SuRequest, (optionLoop words).run state = .ok request →
      ∃ found settings final, Scans suOptions words state.1 found final ∧
        List.Forall₂ Sets found settings := by
    intro state
    induction state using (optionLoop words).run_induction with
    | finish state result turn =>
        intro ran
        rw [(optionLoop words).run_of_finish turn] at ran
        have body : optionTurn words state = .finish result := turn
        unfold optionTurn at body
        split at body
        · rename_i final ends
          exact ⟨[], [], final, .done ends, .nil⟩
        · cases body
          cases ran
        · split at body
          · cases body
            cases ran
          · cases body
    | again state next turn induction =>
        intro ran
        rw [(optionLoop words).run_of_again turn] at ran
        rcases induction ran with ⟨found, settings, final, scans, sets⟩
        have body : optionTurn words state = .again next := turn
        unfold optionTurn at body
        split at body
        · cases body
        · cases body
        · rename_i option optarg scan first
          split at body
          · cases body
          · rename_i after applied
            cases body
            rcases exists_setting (finds_of_getoptLong first) applied with ⟨setting, isSetting⟩
            exact ⟨_, setting :: settings, final, .option first scans, .cons isSetting sets⟩
  rcases general _ parses with ⟨found, settings, final, scans, sets⟩
  exact ⟨settings, _, found, final, scans, sets, rfl⟩

end Words

/-! ## The program that is executed -/

section Executed

variable {env : SuEnvironment} {words rest : List CString} {elsewhere : Int → Option CString}
  {settings : List Setting} {result : Execution × Argv}

theorem ExecutesProgram.congr {execution : Execution} {slot : Int → Option CString}
    {login : Bool} {program other : CString × List CString} (same : program = other)
    (executes : ExecutesProgram execution slot login program) :
    ExecutesProgram execution slot login other := same ▸ executes

theorem Reached.executesRequest_iff
    (run : Reached env words (Argv.ofWords words elsewhere) result)
    (inside : ∀ index, index ∈ result.2.writes → 0 ≤ index ∧ index ≤ words.length)
    (reads : Reads words settings rest) :
    ExecutesRequest settings rest result.1 result.2.slot ↔ ShellStands settings := by
  rcases reads.parsed with ⟨request, parses, chosen, isRest⟩
  obtain rfl : run.parsed = request := Except.ok.inj (run.options.symm.trans parses)
  have executes := (run.executes inside).runs
  have command : run.parsed.command = _ := congrArg Chosen.command chosen
  have shell : run.parsed.shell = _ := congrArg Chosen.shell chosen
  have login : run.parsed.login = decide (.login ∈ settings) := by
    have isLogin : run.parsed.login = _ := congrArg Chosen.login chosen
    rw [isLogin, foldl_login]
    rfl
  rw [argumentWords, asksForLogin, isRest, command, shell, login] at executes
  have program := chosen_program_iff settings (skipDashes (skipLogin (skipDash rest)))
  constructor
  · exact fun asked => program.1 (executes.binary.symm.trans asked.binary)
  · exact fun stands => executes.congr (program.2 stands)

/-- A run never crashes on the way to `execvp`. If it comes there and has written nothing outside
of the array, then it executes what its words ask for exactly when no command comes behind the
last shell that they name, or that is the default. -/
theorem suMain_executesRequest_iff (env : SuEnvironment) (words : List CString)
    (elsewhere : Int → Option CString) :
    suMain env words false (Argv.ofWords words elsewhere) ≠ .error .crashes ∧
      ∀ execution argv,
        suMain env words false (Argv.ofWords words elsewhere) = .ok (execution, argv) →
        (∀ index, index ∈ argv.writes → 0 ≤ index ∧ index ≤ words.length) →
        (∃ settings rest, Reads words settings rest) ∧
          ∀ settings rest, Reads words settings rest →
            (ExecutesRequest settings rest execution argv.slot ↔ ShellStands settings) := by
  refine ⟨suMain_survives (holdsWords_ofWords words elsewhere), ?_⟩
  intro execution argv reaches inside
  rcases reached_of_suMain reaches with ⟨run⟩
  exact ⟨exists_reads run.options, fun _ _ reads => run.executesRequest_iff inside reads⟩

end Executed

/-- `su -c id -s /bin/mksh -- 0 x` -/
def commandThenShell : List CString :=
  writtenOut (ascii "su") [.command (ascii "id"), .shell (ascii "/bin/mksh")]
    [ascii "0", ascii "x"]

/-- A shell behind the command runs it. -/
theorem commandThenShell_executed :
    ∃ execution argv, suMain rootOnly commandThenShell false
        (Argv.ofWords commandThenShell fun _ => none) = .ok (execution, argv) ∧
      (∀ index, index ∈ argv.writes → 0 ≤ index ∧ index ≤ commandThenShell.length) ∧
      ExecutesRequest [.command (ascii "id"), .shell (ascii "/bin/mksh")] [ascii "0", ascii "x"]
        execution argv.slot := by
  have writes : (suMain rootOnly commandThenShell false
      (Argv.ofWords commandThenShell fun _ => none)).toOption.map
        (fun result => result.2.writes) = some [4, 5, 6] := by decide +kernel
  cases reaches : suMain rootOnly commandThenShell false
      (Argv.ofWords commandThenShell fun _ => none) with
  | error ending => simp [reaches, Except.toOption] at writes
  | ok result =>
      have isWrites : result.2.writes = [4, 5, 6] := by simpa [reaches, Except.toOption] using writes
      have inside : ∀ index, index ∈ result.2.writes →
          0 ≤ index ∧ index ≤ commandThenShell.length := by
        rw [isWrites]
        decide
      have stands : ShellStands [.command (ascii "id"), .shell (ascii "/bin/mksh")] := by
        rintro before path after split - ⟨text, member⟩
        cases before with
        | nil => cases split
        | cons setting before =>
            have nothing : after = [] := by
              have := congrArg List.length split
              simp only [List.length_cons, List.length_append, List.length_nil] at this
              exact List.length_eq_zero_iff.mp (by omega)
            rw [nothing] at member
            cases member
      have executed := (suMain_executesRequest_iff rootOnly commandThenShell fun _ => none).2
        result.1 result.2 reaches inside
      exact ⟨result.1, result.2, rfl, inside,
        (executed.2 _ _ (reads_writtenOut (ascii "su") _ _)).mpr stands⟩

/-- `su -s /bin/mksh -c id --` -/
def shellThenCommand : List CString :=
  writtenOut (ascii "su") [.shell (ascii "/bin/mksh"), .command (ascii "id")] []

/-- A shell before the command is dropped. -/
theorem shellThenCommand_not_executed :
    ∃ execution argv, suMain rootOnly shellThenCommand false
        (Argv.ofWords shellThenCommand fun _ => none) = .ok (execution, argv) ∧
      (∀ index, index ∈ argv.writes → 0 ≤ index ∧ index ≤ shellThenCommand.length) ∧
      Reads shellThenCommand [.shell (ascii "/bin/mksh"), .command (ascii "id")] [] ∧
      execution.binary = ascii "/system/bin/sh" ∧
      ¬ExecutesRequest [.shell (ascii "/bin/mksh"), .command (ascii "id")] []
        execution argv.slot := by
  have ran : (suMain rootOnly shellThenCommand false
      (Argv.ofWords shellThenCommand fun _ => none)).toOption.map
        (fun result => (result.2.writes, result.1.binary)) =
          some ([3, 4, 5], ascii "/system/bin/sh") := by decide +kernel
  cases reaches : suMain rootOnly shellThenCommand false
      (Argv.ofWords shellThenCommand fun _ => none) with
  | error ending => simp [reaches, Except.toOption] at ran
  | ok result =>
      have isResult : result.2.writes = [3, 4, 5] ∧
          result.1.binary = ascii "/system/bin/sh" := by
        simpa [reaches, Except.toOption] using ran
      refine ⟨result.1, result.2, rfl, ?_, reads_writtenOut (ascii "su") _ _, isResult.2, ?_⟩
      · rw [isResult.1]
        decide
      · intro executes
        have asked := executes.binary
        rw [isResult.2] at asked
        exact absurd asked (by decide)

end SuBinary.Su
