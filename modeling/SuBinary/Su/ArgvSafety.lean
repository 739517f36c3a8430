import SuBinary.Su.SuMain

/-! # Accesses to the argument array

`allow` steps back from `optind` by up to three slots. The options make room
for that unless a command is attached to the only word after the program name.
-/

namespace SuBinary.Su

open SuBinary Getopt

/-- Every access lies in the array of `argc` words and its null pointer, and
the null pointer is never overwritten. -/
structure Argv.InBounds (argc : Nat) (argv : Argv) : Prop where
  reads : ∀ index, index ∈ argv.reads → 0 ≤ index ∧ index ≤ argc
  writes : ∀ index, index ∈ argv.writes → 0 ≤ index ∧ index ≤ argc - 1

/-- A word that holds the option `-c` or `--command` together with its
argument; a word of short options may start with flags. -/
def AttachedCommand (word : CString) : Prop :=
  (∃ flags command, (∀ flag, flag ∈ flags → flag ∈ ascii "lmp") ∧ command ≠ [] ∧
    word = dash :: (flags ++ 99 :: command)) ∨
  ∃ name value, name ≠ [] ∧ name <+: ascii "command" ∧
    word = dash :: dash :: (name ++ equals :: value)

/-! ## The options -/

theorem applyOption_ok {request next : SuRequest} {option : Byte} {optarg : Option CString}
    (applied : applyOption request option optarg = .ok next) :
    next.argc = request.argc ∧
      ((option = 99 ∧ next.command = optarg) ∨
        (option ∈ ascii "lmps" ∧ next.command = request.command)) := by
  unfold applyOption at applied
  split at applied
  · cases applied
    exact ⟨rfl, Or.inl ⟨rfl, rfl⟩⟩
  · cases applied
  · cases applied
    exact ⟨rfl, Or.inr ⟨by decide, rfl⟩⟩
  · cases applied
    exact ⟨rfl, Or.inr ⟨by decide, rfl⟩⟩
  · cases applied
    exact ⟨rfl, Or.inr ⟨by decide, rfl⟩⟩
  · cases applied
    exact ⟨rfl, Or.inr ⟨by decide, rfl⟩⟩
  · cases applied
  · cases applied
  · cases applied

theorem findLong_suOptions {name : CString} {option : LongOption}
    (found : findLong suOptions name = some option) :
    option ∈ longOpts ∧ name ≠ [] ∧ name <+: option.name := by
  have notEmpty : name ≠ [] := by
    rintro rfl
    have ambiguous : findLong suOptions [] = none := rfl
    rw [ambiguous] at found
    cases found
  rw [findLong] at found
  split at found
  · rename_i exactly
    cases found
    have same := List.find?_some exactly
    refine ⟨List.mem_of_find?_eq_some exactly, notEmpty, ?_⟩
    rw [← of_decide_eq_true same]
  · split at found
    · rename_i only
      cases found
      have member : option ∈ [option] := List.mem_singleton.mpr rfl
      rw [← only, List.mem_filter] at member
      exact ⟨member.1, notEmpty, List.isPrefixOf_iff_prefix.mp member.2⟩
    · cases found

theorem longOpts_command {option : LongOption} (member : option ∈ longOpts)
    (isCommand : option.value = 99) : option.name = ascii "command" := by
  simp only [longOpts, List.mem_cons, List.not_mem_nil, or_false] at member
  rcases member with rfl | rfl | rfl | rfl | rfl | rfl
  · rfl
  all_goals exact absurd isCommand (by decide)

structure OptionInvariant (words : List CString) (state : Scan × SuRequest) : Prop where
  argc : state.2.argc = words.length
  positive : 1 ≤ state.1.optind
  bound : state.1.optind ≤ max 1 words.length
  inWord : state.1.place ≠ [] → state.1.optind < words.length
  flags : state.1.place ≠ [] → state.1.optind = 1 → ∃ flags,
    (∀ flag, flag ∈ flags → flag ∈ ascii "lmp") ∧
      words[1]? = some (dash :: (flags ++ state.1.place))
  consumed : state.2.command.isSome → 2 ≤ state.1.optind
  attached : state.2.command.isSome → state.1.optind = 2 →
    ∃ word, words[1]? = some word ∧ AttachedCommand word

theorem inWord_of_nextShort {words : List CString} {state : Scan × SuRequest} {option : Byte}
    {rest : CString} (invariant : OptionInvariant words state)
    (next : NextShort words state.1 option rest) : state.1.optind < words.length := by
  cases next with
  | inside place => exact invariant.inWord (by simp [place])
  | opens place word short => exact (List.getElem?_eq_some_iff.mp word).1

theorem flags_of_nextShort {words : List CString} {state : Scan × SuRequest} {option : Byte}
    {rest : CString} (invariant : OptionInvariant words state)
    (next : NextShort words state.1 option rest) (first : state.1.optind = 1) :
    ∃ flags, (∀ flag, flag ∈ flags → flag ∈ ascii "lmp") ∧
      words[1]? = some (dash :: (flags ++ option :: rest)) := by
  cases next with
  | inside place =>
      rw [← place]
      exact invariant.flags (by simp [place]) first
  | opens place word short =>
      rw [first] at word
      exact ⟨[], by simp, word⟩

theorem lmp_of_flag {option : Byte} (listed : suOptions.short option = some false)
    (allowed : option = 99 ∨ option ∈ ascii "lmps") : option ∈ ascii "lmp" := by
  rcases allowed with rfl | member
  · exact absurd listed (by decide)
  · have bytes : option ∈ ([108, 109, 112, 115] : List Byte) := member
    have options : option = 108 ∨ option = 109 ∨ option = 112 ∨ option = 115 := by
      simpa using bytes
    rcases options with rfl | rfl | rfl | rfl
    · decide
    · decide
    · decide
    · exact absurd listed (by decide)

theorem attachedValue_eq_some {text value : CString} (attached : attachedValue text = some value) :
    text = text.takeWhile (· ≠ equals) ++ equals :: value := by
  rw [attachedValue] at attached
  split at attached
  · cases attached
  · rename_i head tail dropped
    cases attached
    have isEquals : head = equals := by
      have := List.head?_dropWhile_not (· ≠ equals) text
      rw [dropped] at this
      simpa using this
    conv_lhs => rw [← List.takeWhile_append_dropWhile (p := (· ≠ equals)) (l := text), dropped]
    rw [isEquals]

theorem optionInvariant_atWord {words : List CString} {optind : Nat} {request : SuRequest}
    (argc : request.argc = words.length) (positive : 1 ≤ optind)
    (bound : optind ≤ max 1 words.length) (consumed : request.command.isSome → 2 ≤ optind)
    (attached : request.command.isSome → optind = 2 →
      ∃ word, words[1]? = some word ∧ AttachedCommand word) :
    OptionInvariant words (⟨optind, []⟩, request) where
  argc := argc
  positive := positive
  bound := bound
  inWord := fun inside => absurd rfl inside
  flags := fun inside => absurd rfl inside
  consumed := consumed
  attached := attached

theorem optionInvariant_again {words : List CString} {state next : Scan × SuRequest}
    (invariant : OptionInvariant words state)
    (turn : (optionLoop words).body state = .again next) : OptionInvariant words next := by
  rcases optionTurn_again turn with ⟨option, optarg, finds, applied⟩
  rcases applyOption_ok applied with ⟨sameArgc, commandIs⟩
  rcases next with ⟨nextScan, nextRequest⟩
  have argc : nextRequest.argc = words.length := sameArgc.trans invariant.argc
  have positive := invariant.positive
  -- any other option keeps the command, and with it what the invariant says
  have kept : nextRequest.command.isSome → option ≠ 99 ∨ optarg = none →
      state.2.command.isSome := by
    intro given other
    rcases commandIs with ⟨isCommand, isOptarg⟩ | ⟨-, same⟩
    · rcases other with notCommand | noArgument
      · exact absurd isCommand notCommand
      · rw [isOptarg, noArgument] at given
        cases given
    · exact same ▸ given
  cases finds with
  | @flag option rest nextShort listed =>
      have inside := inWord_of_nextShort invariant nextShort
      have isFlag : option ∈ ascii "lmp" :=
        lmp_of_flag listed (commandIs.imp (fun is => is.1) fun is => is.1)
      cases rest with
      | nil =>
          refine optionInvariant_atWord argc (by omega) (by omega) (fun given => ?_)
            (fun given second => ?_)
          · have := invariant.consumed (kept given (Or.inr rfl))
            omega
          · have := invariant.consumed (kept given (Or.inr rfl))
            omega
      | cons byte rest =>
          exact
            { argc
              positive
              bound := invariant.bound
              inWord := fun _ => inside
              flags := fun _ first => by
                rcases flags_of_nextShort invariant nextShort first with ⟨flags, areFlags, word⟩
                refine ⟨flags ++ [option], fun flag member => ?_, by simpa using word⟩
                rcases List.mem_append.mp member with before | last
                · exact areFlags flag before
                · rwa [List.mem_singleton.mp last]
              consumed := fun given => invariant.consumed (kept given (Or.inr rfl))
              attached := fun given => invariant.attached (kept given (Or.inr rfl)) }
  | @attached option rest nextShort listed someRest =>
      have inside := inWord_of_nextShort invariant nextShort
      refine optionInvariant_atWord argc (by omega) (by omega) (fun _ => by omega)
        (fun given second => ?_)
      by_cases isCommand : option = 99
      · rcases flags_of_nextShort invariant nextShort (by omega) with ⟨flags, areFlags, word⟩
        subst isCommand
        exact ⟨_, word, Or.inl ⟨flags, rest, areFlags, someRest, rfl⟩⟩
      · have := invariant.consumed (kept given (Or.inl isCommand))
        omega
  | separate nextShort listed follows =>
      have inside := (List.getElem?_eq_some_iff.mp follows).1
      exact optionInvariant_atWord argc (by omega) (by omega) (fun _ => by omega)
        (fun _ second => by omega)
  | longFlag nextLong listed bare =>
      have inside := (List.getElem?_eq_some_iff.mp nextLong.word).1
      refine optionInvariant_atWord argc (by omega) (by omega) (fun _ => by omega)
        (fun given second => ?_)
      have := invariant.consumed (kept given (Or.inr rfl))
      omega
  | @longAttached text option value nextLong listed takes attached =>
      have inside := (List.getElem?_eq_some_iff.mp nextLong.word).1
      refine optionInvariant_atWord argc (by omega) (by omega) (fun _ => by omega)
        (fun given second => ?_)
      by_cases isCommand : option.value = 99
      · have word := nextLong.word
        rw [show state.1.optind = 1 by omega] at word
        rcases findLong_suOptions listed with ⟨member, notEmpty, abbreviates⟩
        rw [longOpts_command member isCommand] at abbreviates
        refine ⟨_, word, Or.inr ⟨_, value, notEmpty, abbreviates, ?_⟩⟩
        rw [← attachedValue_eq_some attached]
      · have := invariant.consumed (kept given (Or.inl isCommand))
        omega
  | longSeparate nextLong listed takes follows =>
      have inside := (List.getElem?_eq_some_iff.mp follows).1
      exact optionInvariant_atWord argc (by omega) (by omega) (fun _ => by omega)
        (fun _ second => by omega)

structure Parsed (words : List CString) (request : SuRequest) : Prop where
  argc : request.argc = words.length
  positive : 1 ≤ request.optind
  bound : request.optind ≤ max 1 words.length
  consumed : request.command.isSome → 2 ≤ request.optind
  attached : request.command.isSome → request.optind = 2 →
    ∃ word, words[1]? = some word ∧ AttachedCommand word

theorem parsed_of_parseOptions {words : List CString} {request : SuRequest}
    (parsed : parseOptions words = .ok request) : Parsed words request := by
  let Post := fun result : Except Ending SuRequest =>
    ∀ request, result = .ok request → Parsed words request
  have start : OptionInvariant words (⟨1, []⟩, newRequest words) :=
    optionInvariant_atWord rfl (Nat.le_refl 1) (Nat.le_max_left _ _)
      (fun given => by simp [newRequest] at given) (fun given => by simp [newRequest] at given)
  have holds : Post (parseOptions words) :=
    (optionLoop words).run_invariant (fun _ _ invariant => optionInvariant_again invariant)
      (fun state result invariant turn => ?_) _ start
  · exact holds request parsed
  intro request isRequest
  subst isRequest
  have body : optionTurn words state = .finish (.ok request) := turn
  rw [optionTurn] at body
  split at body
  · rename_i scan found
    cases body
    have positive := invariant.positive
    rcases (done_of_getoptLong found).2 with rfl | ⟨rfl, word⟩
    · exact
        { argc := invariant.argc
          positive := positive
          bound := invariant.bound
          consumed := invariant.consumed
          attached := invariant.attached }
    · have inside := (List.getElem?_eq_some_iff.mp word).1
      exact
        { argc := invariant.argc
          positive := by dsimp only; omega
          bound := by dsimp only; omega
          consumed := fun given => Nat.le_succ_of_le (invariant.consumed given)
          attached := fun given second => by
            have := invariant.consumed given
            dsimp only at second
            omega }
  · cases body
  · split at body
    · cases body
    · cases body

/-! ## A command attached to the only word -/

theorem optionLoop_end {words : List CString} (two : words.length = 2) (request : SuRequest) :
    (optionLoop words).run (⟨2, []⟩, request) = .ok { request with optind := 2 } := by
  have past : words[2]? = none := List.getElem?_eq_none_iff.mpr (by omega)
  apply (optionLoop words).run_of_finish
  simp [optionLoop, optionTurn, getoptLong, past]

theorem optionLoop_bundle {words : List CString} (two : words.length = 2)
    {command : CString} (someCommand : command ≠ []) (flags : CString)
    (areFlags : ∀ flag, flag ∈ flags → flag ∈ ascii "lmp") (scan : Scan)
    (first : scan.optind = 1)
    (next : ∀ option rest, flags ++ 99 :: command = option :: rest →
      NextShort words scan option rest) (request : SuRequest) :
    ∃ result, (optionLoop words).run (scan, request) = .ok result ∧
      result.command.isSome ∧ result.optind = 2 := by
  induction flags generalizing scan request with
  | nil =>
      have here := getoptLong_of_nextShort suOptions (next 99 command rfl)
      have attached : attachedTo command = some command := by
        cases command with
        | nil => exact absurd rfl someCommand
        | cons byte rest => rfl
      have turn : (optionLoop words).body (scan, request) =
          .again
            (⟨2, []⟩, { request with shell := some defaultShell, command := some command }) := by
        simp only [optionLoop, optionTurn, here, first, shortOption, attached, takeArgument,
          show suOptions.short 99 = some true from rfl]
        rfl
      rw [(optionLoop words).run_of_again turn, optionLoop_end two]
      exact ⟨_, rfl, rfl, rfl⟩
  | cons flag flags induction =>
      have here := getoptLong_of_nextShort suOptions
        (next flag (flags ++ 99 :: command) rfl)
      have isFlag := areFlags flag (List.mem_cons_self ..)
      have stays : stay 1 (flags ++ 99 :: command) = ⟨1, flags ++ 99 :: command⟩ := by
        cases flags with
        | nil => rfl
        | cons byte rest => rfl
      have applies : ∃ applied, suOptions.short flag = some false ∧
          applyOption request flag none = .ok applied := by
        have bytes : flag ∈ ([108, 109, 112] : List Byte) := isFlag
        have options : flag = 108 ∨ flag = 109 ∨ flag = 112 := by simpa using bytes
        rcases options with rfl | rfl | rfl
        · exact ⟨_, rfl, rfl⟩
        · exact ⟨_, rfl, rfl⟩
        · exact ⟨_, rfl, rfl⟩
      rcases applies with ⟨applied, listed, isApplied⟩
      have turn : (optionLoop words).body (scan, request) =
          .again (⟨1, flags ++ 99 :: command⟩, applied) := by
        simp only [optionLoop, optionTurn, here, first, shortOption, listed, stays, isApplied]
      rw [(optionLoop words).run_of_again turn]
      exact induction (fun flag member => areFlags flag (List.mem_cons_of_mem _ member)) _ rfl
        (fun option rest split => .inside split) applied

/-- A name before `=` that abbreviates `command` selects the option
`--command`. -/
theorem findLong_command {name : CString} (someName : name ≠ [])
    (abbreviates : name <+: ascii "command") :
    findLong suOptions name =
      some { name := ascii "command", takesArgument := true, value := 99 } := by
  rcases abbreviates with ⟨rest, whole⟩
  have isTake : name = (ascii "command").take name.length := by
    rw [← whole, List.take_left]
  have short : name.length ≤ 7 := by
    have := congrArg List.length whole
    rw [List.length_append, show (ascii "command").length = 7 from rfl] at this
    omega
  have positive : 1 ≤ name.length := List.length_pos_of_ne_nil someName
  rw [isTake]
  generalize name.length = length at short positive
  interval_cases length <;> rfl

theorem takeWhile_name {name : CString} (abbreviates : name <+: ascii "command")
    (value : CString) :
    (name ++ equals :: value).takeWhile (· ≠ equals) = name ∧
      attachedValue (name ++ equals :: value) = some value := by
  have plain : ∀ byte, byte ∈ name → decide (byte ≠ equals) = true := by
    intro byte member
    have inCommand : byte ∈ ascii "command" := abbreviates.subset member
    apply decide_eq_true
    rintro rfl
    exact absurd inCommand (by decide)
  constructor
  · rw [List.takeWhile_append_of_pos plain]
    simp
  · rw [attachedValue, List.dropWhile_append_of_pos plain]
    simp

theorem parseOptions_attached {program word : CString} (attached : AttachedCommand word) :
    ∃ request, parseOptions [program, word] = .ok request ∧ request.command.isSome ∧
      request.optind = 2 := by
  rcases attached with ⟨flags, command, areFlags, someCommand, rfl⟩ |
    ⟨name, value, someName, abbreviates, rfl⟩
  · refine optionLoop_bundle rfl someCommand flags areFlags _ rfl (fun option rest split => ?_) _
    refine .opens rfl (by simp [split]) ?_
    rintro rfl
    cases flags with
    | nil => cases split
    | cons flag flags =>
        cases split
        exact absurd (areFlags dash (List.mem_cons_self ..)) (by decide)
  · have next : NextLong [program, dash :: dash :: (name ++ equals :: value)] ⟨1, []⟩
        (name ++ equals :: value) := ⟨rfl, rfl, by simp⟩
    rcases takeWhile_name abbreviates value with ⟨isName, isValue⟩
    have here := getoptLong_of_nextLong suOptions next
    have turn : (optionLoop [program, dash :: dash :: (name ++ equals :: value)]).body
        (⟨1, []⟩, newRequest [program, dash :: dash :: (name ++ equals :: value)]) =
        .again (⟨2, []⟩,
          { newRequest [program, dash :: dash :: (name ++ equals :: value)] with
            shell := some defaultShell
            command := some value }) := by
      simp only [optionLoop, optionTurn, here, longOption, isName, isValue,
        findLong_command someName abbreviates, if_true, takeArgument]
      rfl
    rw [parseOptions, Loop.run_of_again _ turn, optionLoop_end rfl]
    exact ⟨_, rfl, rfl, rfl⟩

/-! ## The words after the options -/

theorem bind_ok {first : SuM α} {next : α → SuM β} {argv : Argv} {result : β × Argv} :
    (first >>= next) argv = .ok result ↔
      ∃ value middle, first argv = .ok (value, middle) ∧ next value middle = .ok result := by
  constructor
  · intro ran
    cases step : first argv with
    | error ending =>
        simp only [bind, StateT.bind, step, Except.bind] at ran
        cases ran
    | ok pair =>
        simp only [bind, StateT.bind, step, Except.bind] at ran
        exact ⟨pair.1, pair.2, rfl, ran⟩
  · rintro ⟨value, middle, step, rest⟩
    simp only [bind, StateT.bind, step, Except.bind, rest]

theorem pure_ok {value : α} {argv : Argv} {result : α × Argv} :
    (pure value : SuM α) argv = .ok result ↔ result = (value, argv) := by
  simp [pure, StateT.pure, Except.pure, eq_comm]

theorem throw_not_ok {ending : Ending} {argv : Argv} {result : α × Argv} :
    (throw ending : SuM α) argv ≠ .ok result := by
  intro ran
  cases ran

theorem readWord_ok {index : Int} {argv after : Argv} {word : CString} :
    readWord index argv = .ok (word, after) ↔
      argv.slot index = some word ∧ after = { argv with reads := index :: argv.reads } := by
  rw [readWord]
  cases argv.slot index with
  | none => simp
  | some found => simp [eq_comm]

def Argv.afterRead (argv : Argv) (index : Int) : Argv :=
  { argv with reads := index :: argv.reads }

@[simp] theorem Argv.afterRead_slot (argv : Argv) (index : Int) :
    (argv.afterRead index).slot = argv.slot := rfl

section Cases

variable {env : SuEnvironment} {request : SuRequest} {argv : Argv} {result : SuRequest × Argv}

theorem takeDash_cases (ran : takeDash request argv = .ok result) :
    (request.argc ≤ request.optind ∧ result = (request, argv)) ∨
      ∃ word, request.optind < request.argc ∧ argv.slot request.optind = some word ∧
        ((word = ascii "-" ∧ result =
            ({ request with login := true, optind := request.optind + 1 },
              argv.afterRead request.optind)) ∨
          (word ≠ ascii "-" ∧ result = (request, argv.afterRead request.optind))) := by
  rw [takeDash] at ran
  split at ran
  · rename_i inside
    rcases bind_ok.mp ran with ⟨word, middle, read, rest⟩
    rcases readWord_ok.mp read with ⟨here, rfl⟩
    refine Or.inr ⟨word, inside, here, ?_⟩
    split at rest
    · rename_i isDash
      exact Or.inl ⟨isDash, pure_ok.mp rest⟩
    · rename_i notDash
      exact Or.inr ⟨notDash, pure_ok.mp rest⟩
  · rename_i past
    exact Or.inl ⟨by omega, pure_ok.mp ran⟩

theorem takeUser_cases (ran : takeUser env request argv = .ok result) :
    (request.argc ≤ request.optind ∧ result = (request, argv)) ∨
      ∃ word, request.optind < request.argc ∧ argv.slot request.optind = some word ∧
        ((word = ascii "--" ∧ result = (request, argv.afterRead request.optind)) ∨
          (word ≠ ascii "--" ∧ ∃ next, setUser env word request = .ok next ∧
            result = ({ next with optind := next.optind + 1 },
              (argv.afterRead request.optind).afterRead request.optind))) := by
  rw [takeUser] at ran
  split at ran
  · rename_i inside
    rcases bind_ok.mp ran with ⟨word, middle, read, rest⟩
    rcases readWord_ok.mp read with ⟨here, rfl⟩
    refine Or.inr ⟨word, inside, here, ?_⟩
    split at rest
    · rename_i isName
      rcases bind_ok.mp rest with ⟨user, last, readAgain, rest⟩
      rcases readWord_ok.mp readAgain with ⟨hereAgain, rfl⟩
      obtain rfl : word = user := Option.some.inj (here.symm.trans hereAgain)
      cases found : setUser env word request with
      | error ending =>
          simp only [found] at rest
          exact absurd rest throw_not_ok
      | ok next =>
          simp only [found] at rest
          exact Or.inr ⟨isName, next, rfl, pure_ok.mp rest⟩
    · rename_i isDashes
      exact Or.inl ⟨not_not.mp isDashes, pure_ok.mp rest⟩
  · rename_i past
    exact Or.inl ⟨by omega, pure_ok.mp ran⟩

theorem takeDashes_cases (ran : takeDashes request argv = .ok result) :
    (request.argc ≤ request.optind ∧ result = (request, argv)) ∨
      ∃ word, request.optind < request.argc ∧ argv.slot request.optind = some word ∧
        ((word = ascii "--" ∧ result =
            ({ request with optind := request.optind + 1 }, argv.afterRead request.optind)) ∨
          (word ≠ ascii "--" ∧ result = (request, argv.afterRead request.optind))) := by
  rw [takeDashes] at ran
  split at ran
  · rename_i inside
    rcases bind_ok.mp ran with ⟨word, middle, read, rest⟩
    rcases readWord_ok.mp read with ⟨here, rfl⟩
    refine Or.inr ⟨word, inside, here, ?_⟩
    split at rest
    · rename_i isDashes
      exact Or.inl ⟨isDashes, pure_ok.mp rest⟩
    · rename_i notDashes
      exact Or.inr ⟨notDashes, pure_ok.mp rest⟩
  · rename_i past
    exact Or.inl ⟨by omega, pure_ok.mp ran⟩

end Cases

/-- What reading the words after the options does: it moves forward, within the
words, and only reads. -/
structure Advances (argc : Nat) (request : SuRequest) (argv : Argv)
    (result : SuRequest × Argv) : Prop where
  sameArgc : result.1.argc = request.argc
  command : result.1.command = request.command
  shell : result.1.shell = request.shell
  forward : request.optind ≤ result.1.optind
  bound : request.optind ≤ max 1 argc → result.1.optind ≤ max 1 argc
  slots : result.2.slot = argv.slot
  reads : argv.InBounds argc → result.2.InBounds argc

theorem Advances.refl (argc : Nat) (request : SuRequest) (argv : Argv) :
    Advances argc request argv (request, argv) where
  sameArgc := rfl
  command := rfl
  shell := rfl
  forward := Nat.le_refl _
  bound := id
  slots := rfl
  reads := id

theorem Advances.trans {argc : Nat} {request : SuRequest} {argv : Argv}
    {middle result : SuRequest × Argv} (first : Advances argc request argv middle)
    (second : Advances argc middle.1 middle.2 result) : Advances argc request argv result where
  sameArgc := second.sameArgc.trans first.sameArgc
  command := second.command.trans first.command
  shell := second.shell.trans first.shell
  forward := first.forward.trans second.forward
  bound := fun bound => second.bound (first.bound bound)
  slots := second.slots.trans first.slots
  reads := fun inBounds => second.reads (first.reads inBounds)

theorem inBounds_read {argc : Nat} {argv : Argv} {index : Nat} (inside : index ≤ argc)
    (inBounds : argv.InBounds argc) : (argv.afterRead index).InBounds argc where
  reads := by
    intro read member
    rcases List.mem_cons.mp member with rfl | member
    · omega
    · exact inBounds.reads read member
  writes := inBounds.writes

theorem advances_word {argc : Nat} {request next : SuRequest} {argv : Argv}
    (inside : request.optind < argc) (sameArgc : next.argc = request.argc)
    (sameCommand : next.command = request.command) (sameShell : next.shell = request.shell)
    (step : next.optind = request.optind ∨ next.optind = request.optind + 1) :
    Advances argc request argv (next, argv.afterRead request.optind) where
  sameArgc := sameArgc
  command := sameCommand
  shell := sameShell
  forward := by dsimp only; omega
  bound := by dsimp only; omega
  slots := rfl
  reads := inBounds_read inside.le

theorem takeDash_ok {request : SuRequest} {argv : Argv} {result : SuRequest × Argv}
    (ran : takeDash request argv = .ok result) :
    Advances request.argc request argv result := by
  rcases takeDash_cases ran with ⟨-, rfl⟩ | ⟨word, inside, -, ⟨-, rfl⟩ | ⟨-, rfl⟩⟩
  · exact Advances.refl _ _ _
  · exact advances_word inside rfl rfl rfl (Or.inr rfl)
  · exact advances_word inside rfl rfl rfl (Or.inl rfl)

theorem setUser_ok {env : SuEnvironment} {word : CString} {request next : SuRequest}
    (found : setUser env word request = .ok next) :
    next.argc = request.argc ∧ next.command = request.command ∧
      next.shell = request.shell ∧ next.optind = request.optind := by
  unfold setUser at found
  grind

theorem takeUser_ok {env : SuEnvironment} {request : SuRequest} {argv : Argv}
    {result : SuRequest × Argv} (ran : takeUser env request argv = .ok result) :
    Advances request.argc request argv result ∧
      (request.optind < request.argc → result.1.optind = request.optind + 1 ∨
        (result.1 = request ∧ argv.slot request.optind = some (ascii "--"))) := by
  rcases takeUser_cases ran with ⟨past, rfl⟩ |
    ⟨word, inside, here, ⟨rfl, rfl⟩ | ⟨-, next, found, rfl⟩⟩
  · exact ⟨Advances.refl _ _ _, fun inside => absurd inside (Nat.not_lt.mpr past)⟩
  · exact ⟨advances_word inside rfl rfl rfl (Or.inl rfl), fun _ => Or.inr ⟨rfl, here⟩⟩
  · rcases setUser_ok found with ⟨sameArgc, sameCommand, sameShell, sameOptind⟩
    constructor
    · exact (advances_word inside rfl rfl rfl (Or.inl rfl)).trans
        (advances_word inside sameArgc sameCommand sameShell (Or.inr (by simp [sameOptind])))
    · exact fun _ => Or.inl (by simp [sameOptind])

theorem takeDashes_ok {request : SuRequest} {argv : Argv} {result : SuRequest × Argv}
    (ran : takeDashes request argv = .ok result) :
    Advances request.argc request argv result ∧
      (request.optind < request.argc → argv.slot request.optind = some (ascii "--") →
        result.1.optind = request.optind + 1) := by
  rcases takeDashes_cases ran with ⟨past, rfl⟩ | ⟨word, inside, here, ⟨-, rfl⟩ | ⟨other, rfl⟩⟩
  · exact ⟨Advances.refl _ _ _, fun inside => absurd inside (Nat.not_lt.mpr past)⟩
  · exact ⟨advances_word inside rfl rfl rfl (Or.inr rfl), fun _ _ => rfl⟩
  · refine ⟨advances_word inside rfl rfl rfl (Or.inl rfl), fun _ isDashes => ?_⟩
    rw [here] at isDashes
    exact absurd (Option.some.inj isDashes) other

theorem takes_word {env : SuEnvironment} {request : SuRequest} {argv : Argv}
    {dashed user last : SuRequest × Argv} (dash : takeDash request argv = .ok dashed)
    (named : takeUser env dashed.1 dashed.2 = .ok user)
    (dashes : takeDashes user.1 user.2 = .ok last) (left : request.optind < request.argc) :
    request.optind < last.1.optind := by
  have first := takeDash_ok dash
  rcases takeUser_ok named with ⟨second, userStep⟩
  rcases takeDashes_ok dashes with ⟨third, dashesStep⟩
  have forward := first.forward
  have userForward := second.forward
  have lastForward := third.forward
  by_cases moved : request.optind < dashed.1.optind
  · omega
  · have inside : dashed.1.optind < dashed.1.argc := by
      rw [first.sameArgc]
      omega
    rcases userStep inside with stepped | ⟨same, isDashes⟩
    · omega
    · rw [same] at dashesStep
      have := dashesStep inside (by rw [second.slots]; exact isDashes)
      omega

/-! ## Executing -/

theorem readArgv_ok {index : Int} {argv : Argv} {result : Option CString × Argv} :
    readArgv index argv = .ok result ↔ result = (argv.slot index, argv.afterRead index) := by
  simp [readArgv, Argv.afterRead, eq_comm]

def Argv.afterWrite (argv : Argv) (index : Int) (value : CString) : Argv :=
  { argv with
    slot := Function.update argv.slot index (some value)
    writes := index :: argv.writes }

theorem writeArgv_ok {index : Int} {value : CString} {argv : Argv} {result : Unit × Argv} :
    writeArgv index value argv = .ok result ↔ result = ((), argv.afterWrite index value) := by
  simp [writeArgv, Argv.afterWrite, eq_comm]

/-- The log line reads only words of the array from `argc` on. -/
theorem logArguments_ok {request : SuRequest} {argc : Int} {argv : Argv}
    {result : Unit × Argv} (ran : logArguments request argc argv = .ok result) :
    result.2.slot = argv.slot ∧ result.2.writes = argv.writes ∧
      ∀ index, index ∈ result.2.reads →
        index ∈ argv.reads ∨ (argc ≤ index ∧ index < request.argc) := by
  rw [logArguments] at ran
  have nonnegative : ∀ arg, arg ∈ ([0, 1, 2, 3, 4, 5] : List Int) → 0 ≤ arg := by decide
  generalize ([0, 1, 2, 3, 4, 5] : List Int) = args at ran nonnegative
  induction args generalizing argv with
  | nil =>
      rcases pure_ok.mp ran with rfl
      exact ⟨rfl, rfl, fun index member => Or.inl member⟩
  | cons arg args induction =>
      rcases bind_ok.mp ran with ⟨_, middle, step, rest⟩
      rcases induction rest fun arg member => nonnegative arg (List.mem_cons_of_mem _ member) with
        ⟨sameSlots, sameWrites, reads⟩
      have positive := nonnegative arg (List.mem_cons_self ..)
      dsimp only at step
      split at step
      · rename_i inside
        rcases bind_ok.mp step with ⟨word, after, read, done⟩
        rcases readArgv_ok.mp read with read
        rcases pure_ok.mp done with done
        cases read
        cases done
        refine ⟨sameSlots, sameWrites, fun index member => ?_⟩
        rcases reads index member with before | inRange
        · rcases List.mem_cons.mp before with rfl | before
          · exact Or.inr ⟨by omega, inside⟩
          · exact Or.inl before
        · exact Or.inr inRange
      · rcases pure_ok.mp step with done
        cases done
        exact ⟨sameSlots, sameWrites, reads⟩

theorem getCommand_ok {request : SuRequest} {argv : Argv} {result : CString × Argv}
    (ran : getCommand request argv = .ok result) :
    result.2.slot = argv.slot ∧ result.2.writes = argv.writes ∧
      ∀ index, index ∈ result.2.reads →
        index ∈ argv.reads ∨ index = (request.optind : Int) := by
  rw [getCommand] at ran
  cases hasCommand : request.command with
  | some command =>
      simp only [hasCommand] at ran
      rcases pure_ok.mp ran with rfl
      exact ⟨rfl, rfl, fun index member => Or.inl member⟩
  | none =>
      cases hasShell : request.shell with
      | some shell =>
          simp only [hasCommand, hasShell] at ran
          rcases pure_ok.mp ran with rfl
          exact ⟨rfl, rfl, fun index member => Or.inl member⟩
      | none =>
          simp only [hasCommand, hasShell] at ran
          rcases bind_ok.mp ran with ⟨word, middle, read, rest⟩
          cases readArgv_ok.mp read
          have after : result.2 = argv.afterRead request.optind := by
            cases here : argv.slot request.optind with
            | none =>
                simp only [here] at rest
                rw [pure_ok.mp rest]
            | some found =>
                simp only [here] at rest
                rw [pure_ok.mp rest]
          rw [after]
          exact ⟨rfl, rfl, fun index member => (List.mem_cons.mp member).symm⟩

inductive Chooses (request : SuRequest) (argv : Argv) : (Option CString × Int) × Argv → Prop
  | command (text : CString) (hasCommand : request.command = some text) :
      Chooses request argv ((request.shell, request.optind - 2),
        (argv.afterWrite (request.optind - 1) text).afterWrite (request.optind - 2) (ascii "-c"))
  | shell (path : CString) (noCommand : request.command = none)
      (hasShell : request.shell = some path) :
      Chooses request argv ((some path, request.optind), argv)
  | nothing (noCommand : request.command = none) (noShell : request.shell = none)
      (noWord : argv.slot request.optind = none) :
      Chooses request argv ((some defaultShell, request.optind), argv.afterRead request.optind)
  | word (program : CString) (noCommand : request.command = none) (noShell : request.shell = none)
      (here : argv.slot request.optind = some program) :
      Chooses request argv ((some program, request.optind + 1),
        (argv.afterRead request.optind).afterRead request.optind)

theorem chooses_of_chooseBinary {request : SuRequest} {argv : Argv}
    {result : (Option CString × Int) × Argv} (ran : chooseBinary request argv = .ok result) :
    Chooses request argv result := by
  rw [chooseBinary] at ran
  cases hasCommand : request.command with
  | some command =>
      simp only [hasCommand] at ran
      rcases bind_ok.mp ran with ⟨_, middle, first, ran⟩
      rcases bind_ok.mp ran with ⟨_, last, second, ran⟩
      cases writeArgv_ok.mp first
      cases writeArgv_ok.mp second
      rcases pure_ok.mp ran with rfl
      exact .command command hasCommand
  | none =>
      cases hasShell : request.shell with
      | some shell =>
          simp only [hasCommand, hasShell] at ran
          rcases pure_ok.mp ran with rfl
          exact .shell shell hasCommand hasShell
      | none =>
          simp only [hasCommand, hasShell] at ran
          rcases bind_ok.mp ran with ⟨word, middle, read, rest⟩
          cases readArgv_ok.mp read
          cases here : argv.slot request.optind with
          | none =>
              simp only [here] at rest
              rcases pure_ok.mp rest with rfl
              exact .nothing hasCommand hasShell here
          | some program =>
              simp only [here] at rest
              rcases bind_ok.mp rest with ⟨again, last, readAgain, rest⟩
              cases readArgv_ok.mp readAgain
              rcases pure_ok.mp rest with rfl
              rw [Argv.afterRead_slot, here]
              exact .word program hasCommand hasShell here

/-- With a command, the two slots before `optind` are written; without one, at most the
slot at `optind` is read. -/
theorem Chooses.accesses {request : SuRequest} {argv : Argv}
    {chosen : (Option CString × Int) × Argv} (chooses : Chooses request argv chosen) :
    (request.command.isSome ∧ chosen.1.2 = request.optind - 2 ∧
      chosen.2.reads = argv.reads ∧
      chosen.2.writes = (request.optind - 2 : Int) :: (request.optind - 1 : Int) :: argv.writes) ∨
    (request.command = none ∧ chosen.2.writes = argv.writes ∧
      (∀ index, index ∈ chosen.2.reads → index ∈ argv.reads ∨ index = (request.optind : Int)) ∧
      (chosen.1.2 = request.optind ∨
        (chosen.1.2 = request.optind + 1 ∧ argv.slot request.optind ≠ none))) := by
  cases chooses with
  | command text hasCommand => exact Or.inl ⟨by simp [hasCommand], rfl, rfl, rfl⟩
  | shell path noCommand hasShell =>
      exact Or.inr ⟨noCommand, rfl, fun index member => Or.inl member, Or.inl rfl⟩
  | nothing noCommand noShell noWord =>
      exact Or.inr ⟨noCommand, rfl, fun index member => (List.mem_cons.mp member).symm,
        Or.inl rfl⟩
  | word program noCommand noShell here =>
      refine Or.inr ⟨noCommand, rfl, fun index member => ?_, Or.inr ⟨rfl, by simp [here]⟩⟩
      rcases List.mem_cons.mp member with again | member
      · exact Or.inr again
      · exact (List.mem_cons.mp member).symm

/-- After the binary is chosen, `allow` reads at `optind` and from the first
argument on, and writes its name to the slot before the first argument. -/
structure Allows (request : SuRequest) (argv : Argv) (result : Execution × Argv)
    (chosen : (Option CString × Int) × Argv) : Prop where
  sameRequest : result.1.request = request
  choice : Chooses request argv chosen
  binary : chosen.1.1 = some result.1.binary
  start : result.1.start = chosen.1.2 - 1
  slots : result.2.slot = Function.update chosen.2.slot result.1.start
    (some (if request.login then ascii "-" ++ basename result.1.binary
      else basename result.1.binary))
  writes : result.2.writes = (chosen.1.2 - 1) :: chosen.2.writes
  reads : ∀ index, index ∈ result.2.reads → index ∈ chosen.2.reads ∨
    index = (request.optind : Int) ∨ (chosen.1.2 ≤ index ∧ index < request.argc)

theorem allow_ok {request : SuRequest} {argv : Argv} {result : Execution × Argv}
    (ran : allow request argv = .ok result) : ∃ chosen, Allows request argv result chosen := by
  rw [allow] at ran
  rcases bind_ok.mp ran with ⟨⟨binary, argc⟩, chosen, choice, ran⟩
  cases binary with
  | none => exact absurd ran throw_not_ok
  | some binary =>
      rcases bind_ok.mp ran with ⟨command, afterCommand, gotCommand, ran⟩
      rcases bind_ok.mp ran with ⟨_, afterLog, logged, ran⟩
      rcases bind_ok.mp ran with ⟨_, last, written, ran⟩
      rcases getCommand_ok gotCommand with ⟨commandSlots, commandWrites, commandReads⟩
      rcases logArguments_ok logged with ⟨logSlots, logWrites, logReads⟩
      cases writeArgv_ok.mp written
      rcases pure_ok.mp ran with rfl
      refine ⟨((some binary, argc), chosen), rfl, chooses_of_chooseBinary choice, rfl, rfl, ?_, ?_,
        fun index member => ?_⟩
      · rw [← commandSlots, ← logSlots]
        rfl
      · exact congrArg (List.cons _) (logWrites.trans commandWrites)
      · rcases logReads index member with before | inRange
        · rcases commandReads index before with before | atOptind
          · exact Or.inl before
          · exact Or.inr (Or.inl atOptind)
        · exact Or.inr (Or.inr inRange)

theorem allow_inBounds_iff {request : SuRequest} {argv : Argv} {result : Execution × Argv}
    (ran : allow request argv = .ok result) (positive : 1 ≤ request.optind)
    (bound : request.optind ≤ request.argc) (null : argv.slot request.argc = none)
    (consumed : request.command.isSome → 2 ≤ request.optind)
    (inBounds : argv.InBounds request.argc) :
    result.2.InBounds request.argc ↔ (request.command.isSome → 3 ≤ request.optind) := by
  rcases allow_ok ran with ⟨chosen, -, choice, -, -, -, writes, reads⟩
  rcases choice.accesses with ⟨given, start, chosenReads, chosenWrites⟩ |
    ⟨noCommand, chosenWrites, chosenReads, start⟩
  · have room := consumed given
    rw [chosenWrites, start] at writes
    rw [chosenReads, start] at reads
    constructor
    · rintro ⟨-, written⟩ -
      have := written _ (writes ▸ List.mem_cons_self ..)
      omega
    · intro threeSlots
      have slots := threeSlots given
      constructor
      · intro index member
        rcases reads index member with before | atOptind | inRange
        · exact inBounds.reads index before
        · omega
        · omega
      · intro index member
        rw [writes] at member
        simp only [List.mem_cons] at member
        rcases member with rfl | rfl | rfl | before
        · omega
        · omega
        · omega
        · exact inBounds.writes index before
  · refine iff_of_true ?_ (fun given => by simp [noCommand] at given)
    have wordAtOptind : chosen.1.2 = request.optind ∨
        (chosen.1.2 = request.optind + 1 ∧ request.optind < request.argc) := by
      refine start.imp id fun ⟨next, someWord⟩ => ⟨next, ?_⟩
      refine Nat.lt_of_le_of_ne bound fun atEnd => ?_
      rw [atEnd] at someWord
      exact someWord null
    constructor
    · intro index member
      rcases reads index member with before | atOptind | inRange
      · rcases chosenReads index before with before | atOptind
        · exact inBounds.reads index before
        · omega
      · omega
      · omega
    · intro index member
      rw [writes, chosenWrites] at member
      rcases List.mem_cons.mp member with rfl | before
      · omega
      · exact inBounds.writes index before

/-! ## The whole run -/

theorem inBounds_ofWords (words : List CString) (elsewhere : Int → Option CString) :
    (Argv.ofWords words elsewhere).InBounds words.length where
  reads := fun _ member => nomatch member
  writes := fun _ member => nomatch member

theorem slot_ofWords_null (words : List CString) (elsewhere : Int → Option CString) :
    (Argv.ofWords words elsewhere).slot words.length = none := by
  simp [Argv.ofWords]

theorem isRunDaemon_ok {argv : Argv} {result : Bool × Argv}
    (ran : isRunDaemon argv = .ok result) :
    result.2.slot = argv.slot ∧ ∀ argc, 1 ≤ argc → argv.InBounds argc →
      result.2.InBounds argc := by
  have read : ∀ {argv after : Argv} {word}, readWord 1 argv = .ok (word, after) →
      after.slot = argv.slot ∧ ∀ argc, 1 ≤ argc → argv.InBounds argc → after.InBounds argc := by
    intro argv after word read
    rcases readWord_ok.mp read with ⟨-, rfl⟩
    exact ⟨rfl, fun argc inside inBounds => inBounds_read inside inBounds⟩
  rw [isRunDaemon] at ran
  rcases bind_ok.mp ran with ⟨_, first, readFirst, ran⟩
  rcases read readFirst with ⟨firstSlots, firstBounds⟩
  split at ran
  · rcases pure_ok.mp ran with rfl
    exact ⟨firstSlots, firstBounds⟩
  · rcases bind_ok.mp ran with ⟨_, second, readSecond, ran⟩
    rcases read readSecond with ⟨secondSlots, secondBounds⟩
    split at ran
    · rcases pure_ok.mp ran with rfl
      exact ⟨secondSlots.trans firstSlots, fun argc inside inBounds =>
        secondBounds argc inside (firstBounds argc inside inBounds)⟩
    · rcases bind_ok.mp ran with ⟨_, third, readThird, ran⟩
      rcases read readThird with ⟨thirdSlots, thirdBounds⟩
      have after : result.2 = third := by
        split at ran
        · rw [pure_ok.mp ran]
        · rw [pure_ok.mp ran]
      rw [after]
      exact ⟨thirdSlots.trans (secondSlots.trans firstSlots), fun argc inside inBounds =>
        thirdBounds argc inside (secondBounds argc inside (firstBounds argc inside inBounds))⟩

theorem startDaemon_ok {env : SuEnvironment} {argc : Nat} {argv : Argv}
    {result : Unit × Argv} (ran : startDaemon env argc argv = .ok result) :
    result.2.slot = argv.slot ∧ (argv.InBounds argc → result.2.InBounds argc) := by
  rw [startDaemon] at ran
  split at ran
  · rename_i two
    rcases bind_ok.mp ran with ⟨asked, after, ask, ran⟩
    rcases isRunDaemon_ok ask with ⟨slots, bounds⟩
    split at ran
    · exact absurd ran throw_not_ok
    · rcases pure_ok.mp ran with rfl
      exact ⟨slots, bounds argc (by omega)⟩
  · rcases pure_ok.mp ran with rfl
    exact ⟨rfl, id⟩

structure Reached (env : SuEnvironment) (words : List CString) (argv : Argv)
    (result : Execution × Argv) where
  parsed : SuRequest
  checked : Argv
  dashed : SuRequest × Argv
  user : SuRequest × Argv
  last : SuRequest × Argv
  checkedSlots : checked.slot = argv.slot
  checkedBounds : argv.InBounds words.length → checked.InBounds words.length
  options : parseOptions words = .ok parsed
  dash : takeDash parsed checked = .ok dashed
  named : takeUser env dashed.1 dashed.2 = .ok user
  dashes : takeDashes user.1 user.2 = .ok last
  trusted : env.fromInit = true
  allowed : allow last.1 last.2 = .ok result

theorem reached_of_suMain {env : SuEnvironment} {words : List CString} {argv : Argv}
    {result : Execution × Argv} (ran : suMain env words false argv = .ok result) :
    Nonempty (Reached env words argv result) := by
  rw [suMain] at ran
  rcases bind_ok.mp ran with ⟨_, checked, check, ran⟩
  rcases startDaemon_ok check with ⟨checkedSlots, checkedBounds⟩
  cases options : parseOptions words with
  | error ending =>
      simp only [options] at ran
      exact absurd ran throw_not_ok
  | ok parsed =>
      simp only [options, Bool.false_eq_true, if_false] at ran
      rcases bind_ok.mp ran with ⟨dashedRequest, dashedArgv, dash, ran⟩
      rcases bind_ok.mp ran with ⟨userRequest, userArgv, named, ran⟩
      rcases bind_ok.mp ran with ⟨lastRequest, lastArgv, dashes, ran⟩
      split at ran
      · rename_i trusted
        exact ⟨⟨parsed, checked, (dashedRequest, dashedArgv), (userRequest, userArgv),
          (lastRequest, lastArgv), checkedSlots, checkedBounds, options, dash, named, dashes,
          trusted, ran⟩⟩
      · rcases bind_ok.mp ran with ⟨_, _, -, ran⟩
        exact absurd ran throw_not_ok

theorem Reached.advances {env : SuEnvironment} {words : List CString} {argv : Argv}
    {result : Execution × Argv} (run : Reached env words argv result) :
    Advances words.length run.parsed run.checked run.last := by
  have argc := (parsed_of_parseOptions run.options).argc
  have first := takeDash_ok run.dash
  have second := (takeUser_ok run.named).1
  have third := (takeDashes_ok run.dashes).1
  rw [argc] at first
  rw [first.sameArgc, argc] at second
  rw [second.sameArgc, first.sameArgc, argc] at third
  exact (first.trans second).trans third

/-- A run that reaches `allow` stays inside the argument array if and only if
there is at least the program's name and the command is not attached to the
only word after it. -/
theorem suMain_inBounds_iff (env : SuEnvironment) (words : List CString)
    (_few : words.length ≤ 512) (elsewhere : Int → Option CString)
    (execution : Execution) (argv : Argv)
    (reaches : suMain env words false (Argv.ofWords words elsewhere) = .ok (execution, argv)) :
    argv.InBounds words.length ↔
      words ≠ [] ∧ ∀ program word, words = [program, word] → ¬AttachedCommand word := by
  rcases reached_of_suMain reaches with ⟨run⟩
  have parsed := parsed_of_parseOptions run.options
  have advances := run.advances
  have argc : run.last.1.argc = words.length := advances.sameArgc.trans parsed.argc
  have bounds := advances.reads (run.checkedBounds (inBounds_ofWords words elsewhere))
  have null : run.last.2.slot run.last.1.argc = none := by
    rw [advances.slots, run.checkedSlots, argc]
    exact slot_ofWords_null words elsewhere
  by_cases noWords : words = []
  · -- any write is outside an array without words
    refine iff_of_false (fun inBounds => ?_) (fun both => both.1 noWords)
    rcases allow_ok run.allowed with ⟨chosen, allows⟩
    have := inBounds.writes _ (allows.writes ▸ List.mem_cons_self ..)
    simp [noWords] at this
    omega
  · have someWord : 1 ≤ words.length := List.length_pos_of_ne_nil noWords
    have bound : run.last.1.optind ≤ words.length := by
      have := advances.bound parsed.bound
      omega
    have forward := advances.forward
    have positive := parsed.positive
    have safe := allow_inBounds_iff run.allowed (by omega) (by omega) null
      (fun given => (parsed.consumed (advances.command ▸ given)).trans forward)
      (by rw [argc]; exact bounds)
    rw [argc] at safe
    refine safe.trans ⟨fun threeSlots => ⟨noWords, ?_⟩, fun notAttached given => ?_⟩
    · rintro program word rfl attached
      rcases parseOptions_attached attached with ⟨request, options, given, second⟩
      rw [run.options] at options
      cases options
      have := threeSlots (advances.command ▸ given)
      have := advances.bound parsed.bound
      simp at this
      omega
    · have given : run.parsed.command.isSome := advances.command ▸ given
      have room := parsed.consumed given
      by_cases isSecond : run.parsed.optind = 2
      · by_cases left : run.parsed.optind < run.parsed.argc
        · have := takes_word run.dash run.named run.dashes left
          omega
        · rcases parsed.attached given isSecond with ⟨word, atWord, attached⟩
          have two : words.length = 2 := by
            have := parsed.argc
            omega
          rcases List.length_eq_two.mp two with ⟨program, only, rfl⟩
          obtain rfl : only = word := by simpa using atWord
          exact absurd attached (notAttached.2 program only rfl)
      · omega

def rootOnly : SuEnvironment where
  getpwnam := fun _ => none
  ulongMax := 2 ^ 64 - 1
  daemonExists := true
  fromInit := true

/-- `su -c id` stays inside its three words. -/
theorem separate_command_inBounds :
    ∃ execution argv, suMain rootOnly [ascii "su", ascii "-c", ascii "id"] false
        (Argv.ofWords [ascii "su", ascii "-c", ascii "id"] fun _ => none) =
        .ok (execution, argv) ∧ argv.InBounds 3 := by
  have succeeds : (suMain rootOnly [ascii "su", ascii "-c", ascii "id"] false
      (Argv.ofWords [ascii "su", ascii "-c", ascii "id"] fun _ => none)).toOption.isSome =
        true := by decide +kernel
  cases reaches : suMain rootOnly [ascii "su", ascii "-c", ascii "id"] false
      (Argv.ofWords [ascii "su", ascii "-c", ascii "id"] fun _ => none) with
  | error ending => simp [reaches, Except.toOption] at succeeds
  | ok result =>
      exact ⟨result.1, result.2, rfl, (suMain_inBounds_iff rootOnly
        [ascii "su", ascii "-c", ascii "id"] (by decide) (fun _ => none) result.1 result.2
        reaches).mpr ⟨nofun, nofun⟩⟩

/-- `su -cid` writes the slot before the first word. -/
theorem attached_command_writes_before_argv :
    ∃ execution argv, suMain rootOnly [ascii "su", ascii "-cid"] false
        (Argv.ofWords [ascii "su", ascii "-cid"] fun _ => none) = .ok (execution, argv) ∧
      -1 ∈ argv.writes ∧ ¬argv.InBounds 2 := by
  have writes : (suMain rootOnly [ascii "su", ascii "-cid"] false
      (Argv.ofWords [ascii "su", ascii "-cid"] fun _ => none)).toOption.map
        (fun result => result.2.writes) = some [-1, 0, 1] := by decide +kernel
  cases reaches : suMain rootOnly [ascii "su", ascii "-cid"] false
      (Argv.ofWords [ascii "su", ascii "-cid"] fun _ => none) with
  | error ending => simp [reaches, Except.toOption] at writes
  | ok result =>
      have first : -1 ∈ result.2.writes := by
        simp [reaches, Except.toOption] at writes
        simp [writes]
      exact ⟨result.1, result.2, rfl, first, fun inBounds =>
        absurd (inBounds.writes (-1) first).1 (by decide)⟩

end SuBinary.Su
