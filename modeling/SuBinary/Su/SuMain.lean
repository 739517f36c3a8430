import SuBinary.Foundation.Getopt
import SuBinary.Foundation.Loop

/-! # The privileged side of `su`

`su_main` and `allow` of `su.c` and `get_command` of `su.h`, with every access
they make to the array `argv`.
-/

namespace SuBinary.Su

open SuBinary Getopt

/-! ## The argument array -/

/-- The array `argv` and the positions read and written so far. Positions
outside the array hold whatever is in memory there. -/
structure Argv where
  slot : Int → Option CString
  reads : List Int
  writes : List Int

/-- The array of `argc` words that ends in a null pointer, as the daemon
allocates it. -/
def Argv.ofWords (words : List CString) (elsewhere : Int → Option CString) : Argv where
  slot := fun index =>
    if 0 ≤ index ∧ index ≤ words.length then words[index.toNat]? else elsewhere index
  reads := []
  writes := []

/-- How `su_main` ends when it does not execute anything. -/
inductive Ending
  | exits (status : Nat)
  | runsDaemon
  | connectsDaemon
  | denies
  | crashes
deriving DecidableEq

abbrev SuM := StateT Argv (Except Ending)

def readArgv (index : Int) : SuM (Option CString) := fun argv =>
  .ok (argv.slot index, { argv with reads := index :: argv.reads })

def readWord (index : Int) : SuM CString := fun argv =>
  match argv.slot index with
  | none => .error .crashes
  | some word => .ok (word, { argv with reads := index :: argv.reads })

def writeArgv (index : Int) (value : CString) : SuM Unit := fun argv =>
  .ok ((), { argv with
    slot := Function.update argv.slot index (some value)
    writes := index :: argv.writes })

/-! ## Options -/

/-- `struct su_request` without `argv`. -/
structure SuRequest where
  uid : Nat
  name : CString
  login : Bool
  keepenv : Bool
  shell : Option CString
  command : Option CString
  argc : Nat
  optind : Nat
deriving DecidableEq

def defaultShell : CString := ascii "/system/bin/sh"

def shortOptions (option : Byte) : Option Bool :=
  if option ∈ ascii "cs" then some true
  else if option ∈ ascii "hlmpVv" then some false
  else none

def longOpts : List LongOption :=
  [{ name := ascii "command", takesArgument := true, value := 99 },
    { name := ascii "help", takesArgument := false, value := 104 },
    { name := ascii "login", takesArgument := false, value := 108 },
    { name := ascii "preserve-environment", takesArgument := false, value := 112 },
    { name := ascii "shell", takesArgument := true, value := 115 },
    { name := ascii "version", takesArgument := false, value := 118 }]

def suOptions : Table where
  short := shortOptions
  long := longOpts

/-- The `switch` of the option loop. -/
def applyOption (request : SuRequest) (option : Byte) (optarg : Option CString) :
    Except Ending SuRequest :=
  match option with
  | 99 => .ok { request with shell := some defaultShell, command := optarg } -- c
  | 104 => .error (.exits 0) -- h
  | 108 => .ok { request with login := true } -- l
  | 109 => .ok { request with keepenv := true } -- m
  | 112 => .ok { request with keepenv := true } -- p
  | 115 => .ok { request with shell := optarg } -- s
  | 86 => .error (.exits 0) -- V
  | 118 => .error (.exits 0) -- v
  | _ => .error (.exits 2)

def optionTurn (words : List CString) (state : Scan × SuRequest) :
    Turn (Scan × SuRequest) (Except Ending SuRequest) :=
  match getoptLong suOptions words state.1 with
  | (.done, scan) => .finish (.ok { state.2 with optind := scan.optind })
  | (.unknown, _) => .finish (.error (.exits 2))
  | (.option option optarg, scan) =>
      match applyOption state.2 option optarg with
      | .error ending => .finish (.error ending)
      | .ok request => .again (scan, request)

theorem optionTurn_again {words : List CString} {state next : Scan × SuRequest}
    (turn : optionTurn words state = .again next) :
    ∃ option optarg, Finds suOptions words state.1 option optarg next.1 ∧
      applyOption state.2 option optarg = .ok next.2 := by
  rw [optionTurn] at turn
  split at turn
  · cases turn
  · cases turn
  · rename_i option optarg scan found
    split at turn
    · cases turn
    · rename_i request applied
      cases turn
      exact ⟨option, optarg, finds_of_getoptLong found, applied⟩

def optionLoop (words : List CString) : Loop (Scan × SuRequest) (Except Ending SuRequest) where
  body := optionTurn words
  rank := fun state => remaining words state.1
  decreases := by
    intro state next turn
    rcases optionTurn_again turn with ⟨option, optarg, finds, -⟩
    exact finds.remaining_lt

def newRequest (words : List CString) : SuRequest where
  uid := 0
  name := []
  login := false
  keepenv := false
  shell := none
  command := none
  argc := words.length
  optind := 0

def parseOptions (words : List CString) : Except Ending SuRequest :=
  (optionLoop words).run ({ optind := 1, place := [] }, newRequest words)

/-! ## The user -/

/-- `struct passwd` as far as it is read. -/
structure Passwd where
  pwUid : Nat
  pwName : Option CString

/-- What `su_main` learns from the system: the user database, `ULONG_MAX`,
whether the daemon runs already and whether `from_init` succeeds. -/
structure SuEnvironment where
  getpwnam : CString → Option Passwd
  ulongMax : Nat
  daemonExists : Bool
  fromInit : Bool

def nameSize : Nat := 64

def setUser (env : SuEnvironment) (word : CString) (request : SuRequest) :
    Except Ending SuRequest :=
  match env.getpwnam word with
  | none =>
      let conversion := strtoul env.ulongMax word
      if conversion.erange || conversion.endptr ≠ [] then .error (.exits 1)
      else .ok { request with uid := conversion.value % 2 ^ 32 }
  | some pw =>
      match pw.pwName with
      | none => .ok { request with uid := pw.pwUid }
      | some name =>
          if nameSize ≤ name.length then .error (.exits 1)
          else .ok { request with uid := pw.pwUid, name := name }

/-- A word `-` asks for a login shell. -/
def takeDash (request : SuRequest) : SuM SuRequest := do
  if request.optind < request.argc then
    let word ← readWord request.optind
    if word = ascii "-" then
      return { request with login := true, optind := request.optind + 1 }
    else
      return request
  else
    return request

/-- Any word but `--` names the user. -/
def takeUser (env : SuEnvironment) (request : SuRequest) : SuM SuRequest := do
  if request.optind < request.argc then
    let word ← readWord request.optind
    if word ≠ ascii "--" then
      let user ← readWord request.optind
      match setUser env user request with
      | .error ending => throw ending
      | .ok request => return { request with optind := request.optind + 1 }
    else
      return request
  else
    return request

def takeDashes (request : SuRequest) : SuM SuRequest := do
  if request.optind < request.argc then
    let word ← readWord request.optind
    if word = ascii "--" then
      return { request with optind := request.optind + 1 }
    else
      return request
  else
    return request

/-! ## Execution -/

def getCommand (request : SuRequest) : SuM CString :=
  match request.command, request.shell with
  | some command, _ => return command
  | none, some shell => return shell
  | none, none => do
      match ← readArgv request.optind with
      | some word => return word
      | none => return defaultShell

/-- The call `execvp(binary, argv + start)`. -/
structure Execution where
  binary : CString
  start : Int
  request : SuRequest

/-- The binary to run and the position `argc` that the arguments start at. -/
def chooseBinary (request : SuRequest) : SuM (Option CString × Int) :=
  match request.command, request.shell with
  | some command, shell => do
      writeArgv (request.optind - 1) command
      writeArgv (request.optind - 2) (ascii "-c")
      return (shell, request.optind - 2)
  | none, some shell => return (some shell, request.optind)
  | none, none => do
      match ← readArgv request.optind with
      | some _ =>
          let word ← readArgv request.optind
          return (word, request.optind + 1)
      | none => return (some defaultShell, request.optind)

def basename (path : CString) : CString :=
  (path.reverse.takeWhile (· ≠ 47)).reverse

/-- The `PARG` arguments of the log line: up to six of the words from `argc`
on. -/
def logArguments (request : SuRequest) (argc : Int) : SuM Unit :=
  [0, 1, 2, 3, 4, 5].forM fun (arg : Int) => do
    if argc + arg < request.argc then
      let _ ← readArgv (argc + arg)
      return ()

/-- The identity and the environment of the process are set on the way; both
leave `argv` alone. -/
def allow (request : SuRequest) : SuM Execution := do
  let (binary, argc) ← chooseBinary request
  match binary with
  | none => throw .crashes
  | some binary =>
      let arg0 := if request.login then ascii "-" ++ basename binary else basename binary
      let _ ← getCommand request
      logArguments request argc
      writeArgv (argc - 1) arg0
      return { binary, start := argc - 1, request }

def deny (request : SuRequest) : SuM Execution := do
  let _ ← getCommand request
  throw .denies

def isRunDaemon : SuM Bool := do
  if (← readWord 1) = ascii "--daemon" then return true
  else if (← readWord 1) = ascii "-d" then return true
  else if (← readWord 1) = ascii "--start" then return true
  else return false

/-- A single argument may ask to start the daemon. -/
def startDaemon (env : SuEnvironment) (argc : Nat) : SuM Unit := do
  if argc = 2 then
    let isRunDaemon ← isRunDaemon
    if isRunDaemon then
      throw (if env.daemonExists then .exits 0 else .runsDaemon)
    else
      return ()
  else
    return ()

/-- `getopt_long` reads the words itself; all other accesses go through the
array. -/
def suMain (env : SuEnvironment) (words : List CString) (needClient : Bool) :
    SuM Execution := do
  startDaemon env words.length
  match parseOptions words with
  | .error ending => throw ending
  | .ok request =>
      if needClient then
        throw .connectsDaemon
      else
        let request ← takeDash request
        let request ← takeUser env request
        let request ← takeDashes request
        if env.fromInit then allow request else deny request

end SuBinary.Su
