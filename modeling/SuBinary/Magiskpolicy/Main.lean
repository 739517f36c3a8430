import SuBinary.Magiskpolicy.Parser

/-! # `magiskpolicy_main`

The options of `magiskpolicy_main` and the loop over the policy statements. The
strings of `argv` lie next to each other in memory.
-/

namespace SuBinary.Magiskpolicy

open SuBinary

/-! ## Arguments -/

structure Argument where
  address : Nat
  text : CString
deriving DecidableEq

def placeFrom : Nat → List CString → List Argument
  | _, [] => []
  | address, text :: rest => { address, text } :: placeFrom (address + text.length + 1) rest

/-- The strings of `argv` in memory, followed by what else is there. -/
def argvCells (argv : List CString) (beyond : List Byte) : List Byte :=
  argv.flatMap (· ++ [0]) ++ beyond

/-! ## Options -/

structure Options where
  live : Bool
  minimal : Bool
  infile : Option Argument
  outfile : Option Argument
  rules : List Argument

def Options.start : Options where
  live := false
  minimal := false
  infile := none
  outfile := none
  rules := []

/-- The loop over `argv`; `none` is a call of `usage`. -/
def readOptions : List Argument → Options → Option Options
  | [], options => some options
  | argument :: rest, options =>
      if ascii "--" <+: argument.text then
        if argument.text = ascii "--live" then
          readOptions rest { options with live := true }
        else if argument.text = ascii "--minimal" then
          readOptions rest { options with minimal := true }
        else if argument.text = ascii "--load" then
          match rest with
          | [] => none
          | file :: rest => readOptions rest { options with infile := some file }
        else if argument.text = ascii "--save" then
          match rest with
          | [] => none
          | file :: rest => readOptions rest { options with outfile := some file }
        else none
      else readOptions rest { options with rules := options.rules ++ [argument] }

/-! ## Statements -/

inductive Layout
  | pattern1
  | pattern2
  | pattern3
  | pattern4
  | pattern5
deriving DecidableEq

def parsePattern : Layout → Nat → Nat → MemM Parsed
  | .pattern1 => parsePattern1
  | .pattern2 => parsePattern2
  | .pattern3 => parsePattern3
  | .pattern4 => parsePattern4
  | .pattern5 => parsePattern5

/-- The keywords, with the parser and the number of the action of each. -/
def keywords : List (CString × Layout × Nat) :=
  [(ascii "allow", .pattern1, 0),
    (ascii "deny", .pattern1, 1),
    (ascii "auditallow", .pattern1, 2),
    (ascii "auditdeny", .pattern1, 3),
    (ascii "attradd", .pattern2, 0),
    (ascii "create", .pattern3, 0),
    (ascii "permissive", .pattern3, 1),
    (ascii "enforce", .pattern3, 2),
    (ascii "typetrans", .pattern4, 0),
    (ascii "allowxperm", .pattern5, 0),
    (ascii "auditallowxperm", .pattern5, 1),
    (ascii "dontauditxperm", .pattern5, 2)]

/-- What a statement has led to. `argument` is the text that the parser was
given, and `reported` the text of `syntax_error_msg`. -/
structure Dispatched where
  argument : Option CString
  calls : List PolicyCall
  reported : Option CString
deriving DecidableEq

/-- The body of the loop over the statements. A statement without words makes
`strtok_r` return `NULL`, which `strcmp` does not survive. -/
def dispatch (rule : Nat) : MemM Dispatched := do
  let errMsg ← readString rule
  let (tok, _) ← strtokR (· = space) rule
  match tok with
  | none => failure
  | some tok =>
      let word ← readString tok
      match keywords.lookup word with
      | none => return { argument := none, calls := [], reported := some errMsg }
      | some (layout, action) =>
          let statement := rule + (← strlen tok) + 1
          let memory ← get
          let (status, calls) ← parsePattern layout action statement
          return {
            argument := some (stringAt memory.cells statement)
            calls
            reported := if status ≠ 0 then some errMsg else none }

structure Step where
  rule : Argument
  dispatched : Option Dispatched
  touched : List Nat

def runRules : List Argument → List Byte → List Step × Option (List Byte)
  | [], cells => ([], some cells)
  | rule :: rules, cells =>
      match dispatch rule.address { cells, touched := [] } with
      | none => ([{ rule, dispatched := none, touched := [] }], none)
      | some (dispatched, after) =>
          let (steps, last) := runRules rules after.cells
          ({ rule, dispatched := some dispatched, touched := after.touched } :: steps, last)

/-! ## The program -/

def selinuxPolicy : CString := ascii "/sys/fs/selinux/policy"

def selinuxLoad : CString := ascii "/sys/fs/selinux/load"

/-- Whether `load_policydb` and `dump_policydb` succeed on a file. -/
structure PolicyFiles where
  load : CString → Bool
  dump : CString → Bool

/-- How `magiskpolicy_main` ends; a status of `none` is a crash. `dumped` is the
name of the file that `dump_policydb` was called for. -/
structure Ending where
  status : Option Nat
  minRules : Bool
  steps : List Step
  dumped : Option CString

/-- The name of the output file is read after the statements. -/
def magiskpolicyMain (files : PolicyFiles) (argv : List CString) (beyond : List Byte) : Ending :=
  let failed : Ending := { status := some 1, minRules := false, steps := [], dumped := none }
  if argv.length < 2 then failed
  else
    match readOptions (placeFrom 0 argv).tail Options.start with
    | none => failed
    | some options =>
        let infile := (options.infile.map Argument.text).getD selinuxPolicy
        if !files.load infile then failed
        else
          let (steps, last) := runRules options.rules (argvCells argv beyond)
          match last with
          | none => { status := none, minRules := options.minimal, steps, dumped := none }
          | some cells =>
              let saved := options.outfile.map fun file => stringAt cells file.address
              let outfile := if options.live then some selinuxLoad else saved
              let status := if outfile.any fun file => !files.dump file then 1 else 0
              { status := some status, minRules := options.minimal, steps, dumped := outfile }

end SuBinary.Magiskpolicy
