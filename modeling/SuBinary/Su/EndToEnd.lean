import SuBinary.Su.Login
import SuBinary.Su.RequestedProgram
import SuBinary.Su.Segmentation

/-! # A command from end to end

The caller's `su` parses its words and asks the daemon; the daemon reads the words from the
socket, and `su_main` in its child parses what arrived once more and executes the command.
-/

namespace SuBinary.Su

open SuBinary Getopt

/-- The two processes that parse the words of one call of `su`. What is in memory around their
arrays is not known, nor how much each `read` of the daemon returns. -/
structure SuCall (File : Type) where
  client : Client File
  schedule : List Nat
  callerEnv : SuEnvironment
  callerMemory : Int → Option CString
  daemonEnv : SuEnvironment
  daemonMemory : Int → Option CString

/-- Where a call comes to its end: in the caller's `su`, in `daemon_accept`, in its child, or
with `execvp`. -/
inductive SuOutcome (File : Type)
  | caller (result : Except Ending (Execution × Argv))
  | daemon (failure : Failure)
  | child (ending : Ending)
  | executes (request : Request File) (execution : Execution) (argv : Argv)

namespace SuCall

variable {File : Type} (call : SuCall File)

def callerMain : Except Ending (Execution × Argv) :=
  suMain call.callerEnv call.client.argv true
    (Argv.ofWords call.client.argv call.callerMemory)

def childMain (argv : List CString) : Except Ending (Execution × Argv) :=
  suMain call.daemonEnv argv false (Argv.ofWords argv call.daemonMemory)

def daemonSide : SuOutcome File :=
  match daemonAccept { incoming := connectDaemon call.client, schedule := call.schedule } with
  | .error failure => .daemon failure
  | .ok (request, _) =>
      match call.childMain request.argv with
      | .error ending => .child ending
      | .ok (execution, argv) => .executes request execution argv

def run : SuOutcome File :=
  match call.callerMain with
  | .error .connectsDaemon => call.daemonSide
  | result => .caller result

end SuCall

/-! ## The caller -/

section Caller

variable {env : SuEnvironment} {words : List CString} {argv : Argv}

theorem parseOptions_exits {ending : Ending} (refused : parseOptions words = .error ending) :
    ∃ status, ending = .exits status := by
  let Post := fun result : Except Ending SuRequest =>
    ∀ ending, result = .error ending → ∃ status, ending = .exits status
  have holds : Post (parseOptions words) :=
    (optionLoop words).run_invariant (fun _ _ (_ : True) _ => trivial)
      (fun state result _ turn => ?_) _ trivial
  · exact holds ending refused
  have body : optionTurn words state = .finish result := turn
  intro ending isError
  unfold optionTurn at body
  split at body
  · cases body
    cases isError
  · cases body
    cases isError
    exact ⟨2, rfl⟩
  · split at body
    · rename_i other applied
      cases body
      cases isError
      unfold applyOption at applied
      split at applied
      all_goals cases applied
      all_goals exact ⟨_, rfl⟩
    · cases body

theorem ends_of_suMain_client (env : SuEnvironment) (words : List CString) (argv : Argv) :
    ∃ ending, suMain env words true argv = .error ending ∧
      (startDaemon env words.length argv = .error ending ∨
        parseOptions words = .error ending ∨ ending = .connectsDaemon) := by
  rw [suMain]
  cases started : startDaemon env words.length argv with
  | error ending =>
      refine ⟨ending, ?_, Or.inl rfl⟩
      simp only [bind, StateT.bind, started, Except.bind]
  | ok pair =>
      simp only [bind, StateT.bind, started, Except.bind]
      cases parsed : parseOptions words with
      | error ending => exact ⟨ending, rfl, Or.inr (Or.inl rfl)⟩
      | ok options => exact ⟨.connectsDaemon, rfl, Or.inr (Or.inr rfl)⟩

theorem parseOptions_of_connectsDaemon (holds : HoldsWords words argv)
    (asks : suMain env words true argv = .error .connectsDaemon) :
    ∃ options, parseOptions words = .ok options := by
  cases parsed : parseOptions words with
  | ok options => exact ⟨options, rfl⟩
  | error ending =>
      rcases parseOptions_exits parsed with ⟨status, rfl⟩
      rw [suMain] at asks
      rcases bind_error asks with started | ⟨_, middle, -, later⟩
      · rw [startDaemon] at started
        split at started
        · rename_i two
          rcases bind_error started with failed | ⟨isAsked, _, -, later⟩
          · exact absurd failed (isRunDaemon_runs holds (by omega))
          · split at later
            · split at later
              · cases later
              · cases later
            · exact absurd later pure_not_error
        · exact absurd started pure_not_error
      · simp only [parsed] at later
        cases later

end Caller

/-! ## The child of the daemon -/

section Child

variable {env : SuEnvironment} {words : List CString} {elsewhere : Int → Option CString}

theorem ending_of_parsed {ending : Ending} {options : SuRequest}
    (parses : parseOptions words = .ok options)
    (stopped : suMain env words false (Argv.ofWords words elsewhere) = .error ending) :
    ending = .exits 1 ∨ ending = .denies := by
  have holds := holdsWords_ofWords words elsewhere
  cases stops_of_suMain holds stopped with
  | daemon stops =>
      have refused := startDaemon_options holds stops
      rw [parses] at refused
      cases refused
  | options stops =>
      rw [parses] at stops
      cases stops
  | user options parses request word isWord isName refused => exact Or.inl (setUser_error refused)
  | denied untrusted isDenial => exact Or.inr isDenial

end Child

/-! ## The whole call -/

namespace SuCall

variable {File : Type} (call : SuCall File)

/-- What a call may come to: the daemon is not asked when it is to be started or the options
are refused, and it only gives up when a `read` returned less than what it asked for. A command
does not run in a shell that was named before it. -/
inductive EndsWell : SuOutcome File → Prop
  | caller {ending : Ending}
      (reason : startDaemon call.callerEnv call.client.argv.length
          (Argv.ofWords call.client.argv call.callerMemory) = .error ending ∨
        parseOptions call.client.argv = .error ending) : EndsWell (.caller (.error ending))
  | daemon {failure : Failure}
      (split : ¬NotSplit call.client.requestReads call.schedule) : EndsWell (.daemon failure)
  | child {ending : Ending}
      (reason : call.client.mountStorage = false → ending = .exits 1 ∨ ending = .denies) :
      EndsWell (.child ending)
  | executes {execution : Execution} {argv : Argv}
      (asked : (∀ index, index ∈ argv.writes →
          0 ≤ index ∧ index ≤ call.client.sentArgs.length) →
        ∃ settings rest, Reads call.client.sentArgs settings rest ∧
          (ExecutesRequest settings rest execution argv.slot ↔ ShellStands settings)) :
      EndsWell (.executes call.client.request execution argv)

theorem run_of_ends {ending : Ending} (ends : call.callerMain = .error ending)
    (notAsked : ending ≠ .connectsDaemon) : call.run = .caller (.error ending) := by
  rw [run, ends]
  split
  · rename_i asks
    exact absurd (Except.error.inj asks) notAsked
  · rfl

theorem daemonSide_cases (given : call.client.argv ≠ []) (limits : call.client.WithinLimits)
    (flagWord : ¬(call.client.mountStorage = true ∧ call.client.argc = 1)) :
    (¬NotSplit call.client.requestReads call.schedule ∧
      ∃ failure, call.daemonSide = .daemon failure) ∨
    call.daemonSide = match call.childMain call.client.sentArgs with
      | .error ending => .child ending
      | .ok (execution, argv) => .executes call.client.request execution argv := by
  rcases call.client.readsAs_daemonAccept given limits
    ((call.client.sentArgs.drop call.client.announcedArgc.toNat).flatMap writeString)
    call.schedule with ⟨succeeds, fails⟩
  rw [← call.client.connectDaemon_eq_read_append] at succeeds fails
  by_cases whole : NotSplit call.client.requestReads call.schedule
  · right
    rw [daemonSide, succeeds whole, call.client.readArgv_eq_sentArgs given limits flagWord]
    rfl
  · rcases fails whole with ⟨failure, failed⟩
    exact Or.inl ⟨whole, failure, by rw [daemonSide, failed]⟩

/-- A call within the limits of the protocol that comes to the daemon is accepted there unless a
`read` is short. It then executes what the words ask for that were sent, a shell before a command
apart, and when all words were sent it can only be refused for its user or for the caller. -/
theorem su_call_ends_well (given : call.client.argv ≠ []) (limits : call.client.WithinLimits)
    (flagWord : ¬(call.client.mountStorage = true ∧ call.client.argc = 1)) :
    call.EndsWell call.run := by
  rcases ends_of_suMain_client call.callerEnv call.client.argv
    (Argv.ofWords call.client.argv call.callerMemory) with ⟨ending, ends, reason⟩
  by_cases asks : ending = .connectsDaemon
  · subst asks
    have isRun : call.run = call.daemonSide := by
      rw [run, callerMain, ends]
    rw [isRun]
    rcases call.daemonSide_cases given limits flagWord with ⟨split, failure, isSide⟩ | isSide
    · rw [isSide]
      exact EndsWell.daemon split
    rw [isSide]
    cases child : call.childMain call.client.sentArgs with
    | error ending =>
        apply EndsWell.child
        intro unmounted
        have allSent : call.client.sentArgs = call.client.argv := by
          rw [Client.sentArgs, unmounted, if_neg Bool.false_ne_true]
        rcases parseOptions_of_connectsDaemon (holdsWords_ofWords _ _) ends with
          ⟨options, parses⟩
        rw [allSent] at child
        exact ending_of_parsed parses child
    | ok result =>
        apply EndsWell.executes
        intro inside
        rcases reached_of_suMain child with ⟨run⟩
        rcases exists_reads run.options with ⟨settings, rest, reads⟩
        exact ⟨settings, rest, reads, run.executesRequest_iff inside reads⟩
  · rw [call.run_of_ends ends asks]
    exact EndsWell.caller (reason.imp_right fun later => later.resolve_right asks)

/-- `su -c id`, called by a process on no terminal. No `read` of the daemon is short. -/
def plainCall : SuCall Nat where
  client := Client.detached none [ascii "su", ascii "-c", ascii "id"]
  schedule := [4, 9, 1, 4, 4, 4, 4, 2, 100]
  callerEnv := rootOnly
  callerMemory := fun _ => none
  daemonEnv := rootOnly
  daemonMemory := fun _ => none

theorem plainCall_ends_well :
    plainCall.client.argv ≠ [] ∧ plainCall.client.WithinLimits ∧
      ¬(plainCall.client.mountStorage = true ∧ plainCall.client.argc = 1) ∧
      plainCall.EndsWell plainCall.run := by
  have given : plainCall.client.argv ≠ [] := List.cons_ne_nil _ _
  have limits : plainCall.client.WithinLimits := by
    refine ⟨?_, Nat.zero_le _, ?_⟩
    · change 3 ≤ maxArgs
      decide
    · change ∀ arg, arg ∈ [ascii "su", ascii "-c", ascii "id"] → arg.length ≤ pathMax
      decide
  have unmounted : ¬(plainCall.client.mountStorage = true ∧ plainCall.client.argc = 1) :=
    fun both => Bool.false_ne_true both.1
  exact ⟨given, limits, unmounted, su_call_ends_well plainCall given limits unmounted⟩

end SuCall

end SuBinary.Su
