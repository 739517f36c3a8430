import SuBinary.Su.ClientRun

/-! # The output of the command

The daemon attaches the PTY to each stream of the command for which no descriptor
came. The client pumps the PTY to its standard output if that is a terminal. Both
decide for themselves.
-/

namespace SuBinary.Su

open SuBinary

/-! ## The descriptors of the command -/

namespace DescriptorTable

variable {File : Type}

def free : DescriptorTable File → Nat
  | [] => 0
  | none :: _ => 0
  | some _ :: rest => free rest + 1

def close (fd : Nat) (table : DescriptorTable File) : DescriptorTable File :=
  table.set fd none

def put (file : File) : Nat → DescriptorTable File → DescriptorTable File
  | 0, [] => [some file]
  | 0, _ :: rest => some file :: rest
  | fd + 1, [] => none :: put file fd []
  | fd + 1, head :: rest => head :: put file fd rest

/-- `fd` is `none` for the source's `-1`, on which `dup2` fails. -/
def dup2 (fd : Option Nat) (target : Nat) (table : DescriptorTable File) :
    Option (DescriptorTable File) := do
  let fd ← fd
  let file ← table.file fd
  return table.put file target

/-- A descriptor that came with `recv_fd`, under the number that it gets. -/
def receive (table : DescriptorTable File) : Option File → DescriptorTable File × Option Nat
  | none => (table, none)
  | some file => (table.allocate file, some table.free)

theorem file_free (table : DescriptorTable File) : table.file table.free = none := by
  induction table with
  | nil => rfl
  | cons head rest induction =>
      cases head with
      | none => rfl
      | some file => simpa [DescriptorTable.file, free] using induction

theorem file_allocate_free (table : DescriptorTable File) (opened : File) :
    (table.allocate opened).file table.free = some opened := by
  induction table with
  | nil => rfl
  | cons head rest induction =>
      cases head with
      | none => rfl
      | some file => simpa [DescriptorTable.file, free, allocate] using induction

theorem file_close (fd other : Nat) (table : DescriptorTable File) (different : other ≠ fd) :
    (table.close fd).file other = table.file other := by
  simp [DescriptorTable.file, close, List.getElem?_set_ne (Ne.symm different)]

theorem file_put (file : File) (fd : Nat) (table : DescriptorTable File) (other : Nat) :
    (table.put file fd).file other = if other = fd then some file else table.file other := by
  induction fd generalizing table other with
  | zero =>
      cases table with
      | nil => cases other <;> simp [put, DescriptorTable.file]
      | cons head rest => cases other <;> simp [put, DescriptorTable.file]
  | succ fd induction =>
      cases table with
      | nil =>
          cases other with
          | zero => simp [put, DescriptorTable.file]
          | succ other =>
              have later := induction [] other
              simpa [put, DescriptorTable.file] using later
      | cons head rest =>
          cases other with
          | zero => simp [put, DescriptorTable.file]
          | succ other =>
              have later := induction rest other
              simpa [put, DescriptorTable.file] using later

end DescriptorTable

section

variable {File : Type}

/-- `run_daemon_child` up to the call of `su_main`; `none` is `exit(-1)`. -/
def runDaemonChild (infd outfd errfd : Option Nat) (table : DescriptorTable File) :
    Option (DescriptorTable File) := do
  let table ← table.dup2 outfd 1
  let table ← table.dup2 errfd 2
  let table ← table.dup2 infd 0
  return [infd, outfd, errfd].foldl (fun table fd => fd.elim table table.close) table

/-- `pts_slave[0]` is not the end of the string. -/
def Request.usesPty (request : Request File) : Bool :=
  request.ptsSlave.headD 0 ≠ 0

/-- `daemon_accept` from the receipt of the descriptors to the command. `fd` is the
socket, and `ptsFile` the file that `open` of the PTY yields. -/
def commandDescriptors (request : Request File) (fd : Nat) (ptsFile : File)
    (table : DescriptorTable File) : Option (DescriptorTable File) :=
  let (table, infd) := table.receive request.infd
  let (table, outfd) := table.receive request.outfd
  let (table, errfd) := table.receive request.errfd
  let table := table.close fd
  if request.usesPty then
    let ptsfd := table.free
    runDaemonChild (infd <|> some ptsfd) (outfd <|> some ptsfd) (errfd <|> some ptsfd)
      (table.allocate ptsFile)
  else runDaemonChild infd outfd errfd table

/-- The streams of the command that are attached to the PTY. -/
def Request.onPty (request : Request File) : OutputStream → Bool
  | .stdout => request.outfd.isNone && request.usesPty
  | .stderr => request.errfd.isNone && request.usesPty

/-! ## What the command gets -/

/-- `daemonize` gives the daemon standard streams, so the socket lies above them. -/
structure DaemonTable (fd : Nat) (table : DescriptorTable File) : Prop where
  standard : ∀ stream, stream < 3 → ∃ file, table.file stream = some file
  above : 3 ≤ fd
  socket : ∃ file, table.file fd = some file

/-- A received descriptor lies above the standard streams, apart from the
socket. -/
def Placed (fd : Nat) (table : DescriptorTable File) (number : Option Nat)
    (received : Option File) : Prop :=
  match received with
  | none => number = none
  | some file =>
      ∃ place, number = some place ∧ 3 ≤ place ∧ place ≠ fd ∧ table.file place = some file

theorem DaemonTable.three_le_free {fd : Nat} {table : DescriptorTable File}
    (daemon : DaemonTable fd table) : 3 ≤ table.free := by
  by_contra below
  rcases daemon.standard table.free (by omega) with ⟨file, present⟩
  rw [table.file_free] at present
  cases present

theorem DaemonTable.allocate {fd : Nat} {table : DescriptorTable File}
    (daemon : DaemonTable fd table) (file : File) : DaemonTable fd (table.allocate file) where
  standard := by
    intro stream isStandard
    rcases daemon.standard stream isStandard with ⟨held, present⟩
    exact ⟨held, DescriptorTable.file_allocate present⟩
  above := daemon.above
  socket := by
    rcases daemon.socket with ⟨held, present⟩
    exact ⟨held, DescriptorTable.file_allocate present⟩

theorem DaemonTable.receive {fd : Nat} {table : DescriptorTable File}
    (daemon : DaemonTable fd table) (received : Option File) :
    DaemonTable fd (table.receive received).1 ∧
      Placed fd (table.receive received).1 (table.receive received).2 received := by
  cases received with
  | none => exact ⟨daemon, rfl⟩
  | some file =>
      have apart : table.free ≠ fd := by
        intro same
        rcases daemon.socket with ⟨held, present⟩
        rw [← same, table.file_free] at present
        cases present
      exact ⟨daemon.allocate file, table.free, rfl, daemon.three_le_free, apart,
        table.file_allocate_free file⟩

theorem Placed.receive {fd : Nat} {table : DescriptorTable File} {number : Option Nat}
    {received : Option File} (placed : Placed fd table number received) (later : Option File) :
    Placed fd (table.receive later).1 number received := by
  cases later with
  | none => exact placed
  | some opened =>
      cases received with
      | none => exact placed
      | some file =>
          rcases placed with ⟨place, isPlace, above, apart, present⟩
          exact ⟨place, isPlace, above, apart, DescriptorTable.file_allocate present⟩

/-- The three copies do not overwrite each other, and closing the originals
leaves them. -/
theorem runDaemonChild_files {table : DescriptorTable File} {infd outfd errfd : Nat}
    {input output errors : File} (above : 3 ≤ infd ∧ 3 ≤ outfd ∧ 3 ≤ errfd)
    (isInput : table.file infd = some input) (isOutput : table.file outfd = some output)
    (isErrors : table.file errfd = some errors) :
    ∃ result, runDaemonChild (some infd) (some outfd) (some errfd) table = some result ∧
      result.file 0 = some input ∧ result.file 1 = some output ∧ result.file 2 = some errors := by
  rcases above with ⟨aboveIn, aboveOut, aboveErr⟩
  have errorsStay : (table.put output 1).file errfd = some errors := by
    rw [DescriptorTable.file_put, if_neg (by omega), isErrors]
  have inputStays : ((table.put output 1).put errors 2).file infd = some input := by
    rw [DescriptorTable.file_put, if_neg (by omega), DescriptorTable.file_put, if_neg (by omega),
      isInput]
  have standard : ∀ stream, stream < 3 →
      ((((((table.put output 1).put errors 2).put input 0).close infd).close outfd).close
        errfd).file stream = (((table.put output 1).put errors 2).put input 0).file stream := by
    intro stream isStandard
    rw [DescriptorTable.file_close _ _ _ (by omega), DescriptorTable.file_close _ _ _ (by omega),
      DescriptorTable.file_close _ _ _ (by omega)]
  refine ⟨((((((table.put output 1).put errors 2).put input 0).close infd).close outfd).close
    errfd), ?_, ?_, ?_, ?_⟩
  · simp [runDaemonChild, DescriptorTable.dup2, isOutput, errorsStay, inputStays]
  · rw [standard 0 (by omega)]
    simp [DescriptorTable.file_put]
  · rw [standard 1 (by omega)]
    simp [DescriptorTable.file_put]
  · rw [standard 2 (by omega)]
    simp [DescriptorTable.file_put]

/-- A stream of the command that is not attached to the PTY is the descriptor that
was received. -/
def AttachedOrPassed (request : Request File) (ptsFile : File) (held received : Option File) :
    Prop :=
  (received = none ∧ request.usesPty = true ∧ held = some ptsFile) ∨
    (received ≠ none ∧ held = received)

theorem Placed.or_pts {fd : Nat} {table : DescriptorTable File} {number : Option Nat}
    {received : Option File} (placed : Placed fd table number received)
    (free : 3 ≤ (table.close fd).free) (ptsFile : File) :
    ∃ place, (number <|> some (table.close fd).free) = some place ∧ 3 ≤ place ∧
      ((table.close fd).allocate ptsFile).file place = some (received.getD ptsFile) := by
  cases received with
  | none =>
      cases placed
      exact ⟨_, rfl, free, DescriptorTable.file_allocate_free _ _⟩
  | some file =>
      rcases placed with ⟨place, rfl, above, apart, present⟩
      refine ⟨place, rfl, above, DescriptorTable.file_allocate ?_⟩
      rw [DescriptorTable.file_close _ _ _ apart, present]
      rfl

/-- Without a PTY, a stream that has no number ends the child. -/
theorem runDaemonChild_numbers {infd outfd errfd : Option Nat}
    {table result : DescriptorTable File}
    (ran : runDaemonChild infd outfd errfd table = some result) :
    infd.isSome = true ∧ outfd.isSome = true ∧ errfd.isSome = true := by
  cases outfd with
  | none => simp [runDaemonChild, DescriptorTable.dup2] at ran
  | some outPlace =>
      rcases Option.bind_eq_some_iff.mp ran with ⟨withOutput, -, ran⟩
      cases errfd with
      | none => simp [DescriptorTable.dup2] at ran
      | some errPlace =>
          rcases Option.bind_eq_some_iff.mp ran with ⟨withErrors, -, ran⟩
          cases infd with
          | none => simp [DescriptorTable.dup2] at ran
          | some inPlace => exact ⟨rfl, rfl, rfl⟩

theorem Placed.of_isSome {fd : Nat} {table : DescriptorTable File} {number : Option Nat}
    {received : Option File} (placed : Placed fd table number received)
    (isSome : number.isSome = true) :
    ∃ place file, number = some place ∧ received = some file ∧ 3 ≤ place ∧
      (table.close fd).file place = some file := by
  cases received with
  | none =>
      cases placed
      cases isSome
  | some file =>
      rcases placed with ⟨place, rfl, above, apart, present⟩
      exact ⟨place, file, rfl, rfl, above, by rw [DescriptorTable.file_close _ _ _ apart, present]⟩

theorem commandDescriptors_attached {fd : Nat} {table : DescriptorTable File}
    (daemon : DaemonTable fd table) (request : Request File) (ptsFile : File)
    {descriptors : DescriptorTable File}
    (ran : commandDescriptors request fd ptsFile table = some descriptors) :
    AttachedOrPassed request ptsFile (descriptors.file 0) request.infd ∧
      AttachedOrPassed request ptsFile (descriptors.file 1) request.outfd ∧
      AttachedOrPassed request ptsFile (descriptors.file 2) request.errfd := by
  rcases daemon.receive request.infd with ⟨daemonIn, placedIn⟩
  rcases daemonIn.receive request.outfd with ⟨daemonOut, placedOut⟩
  rcases daemonOut.receive request.errfd with ⟨daemonErr, placedErr⟩
  have placedIn := (placedIn.receive request.outfd).receive request.errfd
  have placedOut := placedOut.receive request.errfd
  simp only [commandDescriptors] at ran
  generalize (((table.receive request.infd).1.receive request.outfd).1.receive
    request.errfd).1 = received at ran daemonErr placedIn placedOut placedErr
  generalize (table.receive request.infd).2 = infd at ran placedIn
  generalize ((table.receive request.infd).1.receive request.outfd).2 = outfd at ran placedOut
  generalize (((table.receive request.infd).1.receive request.outfd).1.receive
    request.errfd).2 = errfd at ran placedErr
  by_cases usesPty : request.usesPty = true
  · have free : 3 ≤ (received.close fd).free := by
      by_contra below
      rcases daemonErr.standard (received.close fd).free (by omega) with ⟨file, present⟩
      have above := daemonErr.above
      rw [← DescriptorTable.file_close fd _ _ (by omega), DescriptorTable.file_free] at present
      cases present
    rcases placedIn.or_pts free ptsFile with ⟨inPlace, isIn, aboveIn, inFile⟩
    rcases placedOut.or_pts free ptsFile with ⟨outPlace, isOut, aboveOut, outFile⟩
    rcases placedErr.or_pts free ptsFile with ⟨errPlace, isErr, aboveErr, errFile⟩
    rcases runDaemonChild_files ⟨aboveIn, aboveOut, aboveErr⟩ inFile outFile errFile with
      ⟨result, isResult, first, second, third⟩
    simp only [usesPty, if_true, isIn, isOut, isErr, isResult, Option.some.injEq] at ran
    subst ran
    have attached : ∀ received held, held = some (Option.getD received ptsFile) →
        AttachedOrPassed request ptsFile held received := by
      intro received held isHeld
      cases received with
      | none => exact Or.inl ⟨rfl, usesPty, isHeld⟩
      | some file => exact Or.inr ⟨by simp, isHeld⟩
    exact ⟨attached _ _ first, attached _ _ second, attached _ _ third⟩
  · simp only [usesPty, Bool.false_eq_true, if_false] at ran
    rcases runDaemonChild_numbers ran with ⟨inSome, outSome, errSome⟩
    rcases placedIn.of_isSome inSome with ⟨inPlace, input, rfl, isIn, aboveIn, inFile⟩
    rcases placedOut.of_isSome outSome with ⟨outPlace, output, rfl, isOut, aboveOut, outFile⟩
    rcases placedErr.of_isSome errSome with ⟨errPlace, errors, rfl, isErr, aboveErr, errFile⟩
    rcases runDaemonChild_files ⟨aboveIn, aboveOut, aboveErr⟩ inFile outFile errFile with
      ⟨result, isResult, first, second, third⟩
    cases isResult.symm.trans ran
    rw [isIn, isOut, isErr]
    exact ⟨Or.inr ⟨by simp, first⟩, Or.inr ⟨by simp, second⟩, Or.inr ⟨by simp, third⟩⟩

end

/-! ## The way of a byte -/

/-- What the client has written to streams of its own that are terminals. -/
def terminalOutput (s : ClientState) : List Byte :=
  if s.atty.stdout then s.output else []

def NoTransferFailed (events : List ClientEvent) : Prop :=
  ∀ event, event ∈ events → event ≠ .main .failed ∧ event ≠ .pump .failed

/-- Every byte from the command is on its way or written, and the pump does not
end before all are written. -/
def OutputKept (s : ClientState) : Prop :=
  match s.main with
  | .install _ _ | .getAttr | .setRaw | .setFlag | .startPump | .readPty =>
      s.written.Sublist (s.output ++ s.queue)
  | .writeOut => s.written.Sublist (s.output ++ s.buffer ++ s.queue)
  | .closePty | .testRaw | .restore | .clearFlag | .cleanup | .readCode | .finish =>
      s.hungUp = true ∧ s.written.Sublist s.output

section

variable {s next : ClientState} {io : Transfer} {event : ClientEvent}

theorem outputKept_mainStep (stdout : s.atty.stdout = true) (kept : OutputKept s)
    (succeeded : io ≠ .failed) (stepped : s.mainStep io = some next) :
    OutputKept next := by
  rw [OutputKept] at kept
  cases ClientState.MainStep.of_mainStep stepped with
  | install sig rest point =>
      simp only [point] at kept
      cases rest with
      | nil => exact kept
      | cons _ _ => exact kept
  | getAttr point | setRaw point | setFlag point | closePty point | restore point
  | skipRestore point | clearFlag point | cleanup point | readCode point =>
      simp only [point] at kept
      exact kept
  | skipRaw point closed =>
      rcases point with point | point
      · simp only [point] at kept
        exact kept
      · simp only [point] at kept
        exact kept
  | startPump point =>
      simp only [point] at kept
      rw [afterStdin, if_pos stdout]
      exact kept
  | readPty count point moved =>
      simp only [point] at kept
      simpa [OutputKept, List.append_assoc] using kept
  | endPty point ended emptied hungUp =>
      simp only [point] at kept
      refine ⟨hungUp, ?_⟩
      simpa [emptied] using kept
  | writeOut count point moved =>
      simp only [point] at kept
      have taken : s.output ++ s.buffer.take count ++ s.buffer.drop count =
          s.output ++ s.buffer := by
        rw [List.append_assoc, List.take_append_drop]
      by_cases emptied : s.buffer.drop count = []
      · rw [← taken, emptied, List.append_nil] at kept
        simpa only [OutputKept, emptied, if_true] using kept
      · rw [← taken] at kept
        simpa only [OutputKept, emptied, if_false] using kept
  | failPty point failed => exact absurd failed succeeded
  | testRaw point =>
      simp only [point] at kept
      cases flagged : s.stdin.isRaw with
      | true => simpa only [OutputKept, flagged, if_true] using kept
      | false => simpa only [OutputKept, flagged, Bool.false_eq_true, if_false] using kept
  | giveUp point | finish point =>
      simp only [point] at kept
      simpa only [OutputKept, point] using kept

theorem outputKept_arriving (kept : OutputKept s) {bytes arriving : List Byte}
    (arrives : bytes.Sublist arriving) (connected : s.hungUp = true → bytes = []) :
    OutputKept { s with written := s.written ++ bytes, queue := s.queue ++ arriving } := by
  unfold OutputKept at kept ⊢
  cases point : s.main with
  | closePty | testRaw | restore | clearFlag | cleanup | readCode | finish =>
      simp only [point] at kept
      refine ⟨kept.1, ?_⟩
      rw [connected kept.1, List.append_nil]
      exact kept.2
  | install _ _ | getAttr | setRaw | setFlag | startPump | readPty | writeOut =>
      simp only [point] at kept
      simp only [← List.append_assoc]
      exact kept.append arrives

theorem outputKept_hangUp (kept : OutputKept s) : OutputKept { s with hungUp := true } := by
  unfold OutputKept at kept ⊢
  cases point : s.main with
  | closePty | testRaw | restore | clearFlag | cleanup | readCode | finish =>
      simp only [point] at kept
      exact ⟨rfl, kept.2⟩
  | install _ _ | getAttr | setRaw | setFlag | startPump | readPty | writeOut =>
      simpa only [point] using kept

theorem outputKept_step (stdout : s.atty.stdout = true) (kept : OutputKept s)
    (succeeded : event ≠ .main .failed) (stepped : clientStep event s = some next) :
    OutputKept next := by
  rcases clientStep_eq_some stepped with ⟨-, turned⟩
  cases event with
  | main io =>
      have notFailed : io ≠ .failed := fun failed => succeeded (failed ▸ rfl)
      exact outputKept_mainStep stdout kept notFailed turned
  | pump io =>
      rcases ClientState.pumpStep_cases turned with ⟨-, rfl⟩ | ⟨-, -, pump, rfl⟩
      all_goals exact kept
  | signal sig =>
      simp only [ClientState.turn] at turned
      split at turned
      all_goals
        cases turned
        exact kept
  | command stream bytes arriving =>
      rcases ClientState.commandWrites_cases turned with ⟨-, notHungUp, arrives, rfl⟩ | ⟨-, rfl⟩
      · have connected : s.hungUp = true → bytes = [] := by simp [notHungUp]
        exact outputKept_arriving kept (List.isSublist_iff_sublist.mp arrives) connected
      · exact kept
  | echoed bytes =>
      cases turned
      simpa using outputKept_arriving kept (List.nil_sublist bytes) fun _ => rfl
  | hangUp =>
      cases turned
      exact outputKept_hangUp kept
  | sendCode =>
      cases turned
      exact kept

end

/-! ## Runs -/

/-- In every run in which nothing fails and the exit code is returned, all that
the command has written to the PTY is written to a terminal. -/
def NothingLost (atty : Atty) (onPty : OutputStream → Bool) (termios : Termios) : Prop :=
  ∀ events last, runClient events (ClientState.start atty onPty termios) = some last →
    NoTransferFailed events → last.ending = some .returned →
    last.written.Sublist (terminalOutput last)

section

variable {atty : Atty} {onPty : OutputStream → Bool} {termios : Termios}

theorem outputKept_start (stdout : atty.stdout = true) :
    OutputKept (ClientState.start atty onPty termios) := by
  rcases atty with ⟨stdin, _, stderr⟩
  cases stdout
  cases stdin with
  | true => exact List.nil_sublist _
  | false => exact List.nil_sublist _

theorem nothingLost_of_pump (stdout : atty.stdout = true) : NothingLost atty onPty termios := by
  intro events last ran succeeded returned
  let Inv := fun s : ClientState =>
    s.atty.stdout = true ∧ OutputKept s ∧ (s.ending = some .returned → s.main = .finish)
  have preserved : ∀ event s next, Inv s → event ≠ .main .failed →
      clientStep event s = some next → Inv next := by
    rintro event s next ⟨pumped, kept, -⟩ notFailed stepped
    have frame := clientStep_frame stepped
    exact ⟨frame.atty ▸ pumped, outputKept_step pumped kept notFailed stepped, frame.returned⟩
  rcases runSteps_invariant preserved events
      ⟨stdout, outputKept_start stdout, fun started => nomatch started⟩
      (along_of_forall (fun event member _ => (succeeded event member).1) _) ran with
    ⟨pumped, kept, finished⟩
  simp only [OutputKept, finished returned] at kept
  simpa only [terminalOutput, pumped, if_true] using kept.2

theorem nothingLost_of_not_onPty (notOnPty : ∀ stream, onPty stream = false) :
    NothingLost atty onPty termios := by
  intro events last ran succeeded returned
  let Inv := fun s : ClientState => s.onPty = onPty ∧ s.written = []
  have preserved : ∀ event s next, Inv s → True → clientStep event s = some next → Inv next := by
    rintro event s next ⟨sameStreams, nothing⟩ - stepped
    have frame := clientStep_frame stepped
    refine ⟨frame.onPty.trans sameStreams, ?_⟩
    rcases clientStep_eq_some stepped with ⟨-, turned⟩
    cases event with
    | main io => rw [(ClientState.mainStep_frame turned).written, nothing]
    | pump io =>
        rcases ClientState.pumpStep_cases turned with ⟨-, rfl⟩ | ⟨-, -, pump, rfl⟩
        all_goals exact nothing
    | signal sig =>
        simp only [ClientState.turn] at turned
        split at turned
        all_goals
          cases turned
          exact nothing
    | command stream bytes arriving =>
        rcases ClientState.commandWrites_cases turned with ⟨isOnPty, -⟩ | ⟨-, rfl⟩
        · rw [sameStreams, notOnPty stream] at isOnPty
          cases isOnPty
        · exact nothing
    | echoed _ | hangUp | sendCode =>
        cases turned
        exact nothing
  have nothing := (runSteps_invariant preserved events ⟨rfl, rfl⟩
    (along_of_forall (fun _ _ _ => trivial) _) ran).2
  rw [nothing]
  exact List.nil_sublist _

theorem not_nothingLost (notPumped : atty.stdout = false) {stream : OutputStream}
    (attached : onPty stream = true) : ¬NothingLost atty onPty termios := by
  intro nothingLost
  rcases atty with ⟨stdin, _, stderr⟩
  cases notPumped
  let started := ClientState.start { stdin, stdout := false, stderr } onPty termios
  let rest := (if stdin then rawSetup else []) ++
    [ClientEvent.hangUp, .sendCode, .main (.moved 4), .main .ended]
  have writes : clientStep (.command stream [65] [65]) started =
      some { started with written := [65], queue := [65] } := by
    have isOnPty : started.onPty stream = true := attached
    have running : started.ending.isSome = false := rfl
    simp only [clientStep, running, Bool.false_eq_true, if_false, ClientState.turn,
      ClientState.commandWrites, isOnPty, if_true]
    rfl
  have returns : ∃ last,
      runClient rest { started with written := [65], queue := [65] } = some last ∧
      last.ending = some .returned ∧ last.written = [65] ∧ terminalOutput last = [] := by
    cases stdin with
    | true => exact ⟨_, rfl, rfl, rfl, rfl⟩
    | false => exact ⟨_, rfl, rfl, rfl, rfl⟩
  rcases returns with ⟨last, ran, returned, written, output⟩
  have succeeded : NoTransferFailed (.command stream [65] [65] :: rest) := by
    intro event member
    simp only [rest, rawSetup, List.mem_cons, List.mem_append, List.not_mem_nil, or_false] at member
    cases stdin with
    | true =>
        simp only [if_true, List.mem_replicate] at member
        rcases member with rfl | (⟨-, rfl⟩ | rfl | rfl | rfl | rfl)
        all_goals exact ⟨by simp, by simp⟩
    | false =>
        simp only [Bool.false_eq_true, if_false, List.not_mem_nil, false_or] at member
        rcases member with rfl | rfl | rfl | rfl | rfl
        all_goals exact ⟨by simp, by simp⟩
  have kept := nothingLost (.command stream [65] [65] :: rest) last
    ((runSteps_cons _ _ _ _).mpr ⟨_, writes, ran⟩) succeeded returned
  rw [written, output] at kept
  cases kept

theorem nothingLost_iff :
    NothingLost atty onPty termios ↔ ∀ stream, onPty stream = true → atty.stdout = true := by
  constructor
  · intro nothingLost stream attached
    by_contra notPumped
    exact not_nothingLost (by simpa using notPumped) attached nothingLost
  · intro pumped
    by_cases stdout : atty.stdout = true
    · exact nothingLost_of_pump stdout
    · exact nothingLost_of_not_onPty fun stream => by
        simpa using mt (pumped stream) stdout

end

/-! ## The client and its daemon -/

theorem DescriptorTable.free_le {File : Type} {table : DescriptorTable File} {fd : Nat}
    (closed : table.file fd = none) : table.free ≤ fd := by
  induction table generalizing fd with
  | nil => exact Nat.zero_le fd
  | cons head rest induction =>
      cases head with
      | none => exact Nat.zero_le fd
      | some file =>
          cases fd with
          | zero => simp [DescriptorTable.file] at closed
          | succ fd =>
              have later : DescriptorTable.file rest fd = none := by
                simpa [DescriptorTable.file] using closed
              exact Nat.succ_le_succ (induction later)

theorem DescriptorTable.closed_of_allocate {File : Type} {table : DescriptorTable File}
    {opened : File} {fd : Nat} (closed : (table.allocate opened).file fd = none) :
    table.file fd = none := by
  cases before : table.file fd with
  | none => rfl
  | some file =>
      rw [DescriptorTable.file_allocate before] at closed
      cases closed

theorem DescriptorTable.free_lt_of_allocate {File : Type} {table : DescriptorTable File}
    {opened : File} {fd : Nat} (closed : (table.allocate opened).file fd = none) :
    table.free < fd := by
  apply Nat.lt_of_le_of_ne (DescriptorTable.free_le (DescriptorTable.closed_of_allocate closed))
  intro same
  rw [← same, table.file_allocate_free] at closed
  cases closed

namespace Client

variable {File : Type} (client : Client File)

/-- What the system promises the client: a socket is no terminal, and `ptsname_r`
yields a name that fits the buffer. -/
structure OnSystem : Prop where
  socket : client.isTty client.socketFile = false
  named : client.ptsSlave.headD 0 ≠ 0
  fits : client.ptsSlave.length ≤ pathMax

/-- With a terminal among the standard streams, the socket and the PTY master take
the numbers of those that are closed. -/
theorem sending_open (system : client.OnSystem) (terminal : client.atty.any = true) {fd : Nat}
    (standard : fd < 3) : ∃ file, client.sending.file fd = some file := by
  by_contra closed
  have closed : client.sending.file fd = none := by
    simpa [Option.eq_none_iff_forall_ne_some] using closed
  simp only [sending, terminal, if_true] at closed
  have first := DescriptorTable.free_lt_of_allocate closed
  have second := DescriptorTable.free_lt_of_allocate (DescriptorTable.file_free client.connected)
  have socketAt : client.connected.file 0 = some client.socketFile := by
    have lowest : client.descriptors.free = 0 := by omega
    rw [← lowest]
    exact client.descriptors.file_allocate_free client.socketFile
  have closedAt : client.connected.file 1 = none := by
    have middle : client.connected.free = 1 := by omega
    rw [← middle]
    exact client.connected.file_free
  have closedLast : client.connected.file 2 = none := by
    have last : fd = 2 := by omega
    rw [← last]
    exact DescriptorTable.closed_of_allocate closed
  simp [atty, Atty.any, isatty, socketAt, closedAt, closedLast, system.socket] at terminal

theorem passed_eq_none_iff (system : client.OnSystem) (terminal : client.atty.any = true)
    {fd : Nat} (standard : fd < 3) : client.passed fd = none ↔ client.isatty fd = true := by
  rcases client.sending_open system terminal standard with ⟨file, isOpen⟩
  cases isTerminal : client.isatty fd with
  | true => simp [passed, streamFd, isTerminal]
  | false => simp [passed, streamFd, isTerminal, isOpen]

theorem accepted_request (short : client.sentPtsSlave.length ≤ pathMax) {request : Request File}
    {left : Socket File}
    (accepted : daemonAccept (Socket.whole (connectDaemon client)) = .ok (request, left)) :
    ∃ argv, request = { client.request with argv } := by
  rw [client.connectDaemon_eq_preamble, client.daemonAccept_preamble short] at accepted
  generalize readArgs (Socket.whole (writeInt client.announcedArgc ++
    client.sentArgs.flatMap writeString)) = args at accepted
  cases args with
  | error failure => cases accepted
  | ok read =>
      cases accepted
      exact ⟨read.1, rfl⟩

theorem request_usesPty (system : client.OnSystem) (argv : List CString) :
    Request.usesPty { client.request with argv } = client.atty.any := by
  cases terminal : client.atty.any with
  | true => simpa [Request.usesPty, request, sentPtsSlave, terminal] using system.named
  | false => simp [Request.usesPty, request, sentPtsSlave, terminal]

theorem request_onPty (system : client.OnSystem) (argv : List CString) :
    Request.onPty { client.request with argv } .stdout = client.atty.stdout ∧
      Request.onPty { client.request with argv } .stderr = client.atty.stderr := by
  simp only [Request.onPty, client.request_usesPty system]
  cases terminal : client.atty.any with
  | true =>
      have output := client.passed_eq_none_iff system terminal (show 1 < 3 by omega)
      have errors := client.passed_eq_none_iff system terminal (show 2 < 3 by omega)
      simp only [Bool.and_true]
      exact ⟨Bool.eq_iff_iff.mpr (Option.isNone_iff_eq_none.trans output),
        Bool.eq_iff_iff.mpr (Option.isNone_iff_eq_none.trans errors)⟩
  | false =>
      simp only [Atty.any, Bool.or_eq_false_iff] at terminal
      simp [terminal]

/-- Every stream of the command is on the PTY or is what the client has passed, and
no output is lost, exactly if the standard output is a terminal whenever the standard
error is one. -/
theorem no_output_lost_iff (system : client.OnSystem) {request : Request File}
    {left : Socket File}
    (accepted : daemonAccept (Socket.whole (connectDaemon client)) = .ok (request, left))
    {fd : Nat} {table : DescriptorTable File} (daemon : DaemonTable fd table) (ptsFile : File)
    (termios : Termios) :
    ((∀ descriptors, commandDescriptors request fd ptsFile table = some descriptors →
        ∀ stream, stream < 3 →
          AttachedOrPassed request ptsFile (descriptors.file stream) (client.passed stream)) ∧
      NothingLost client.atty request.onPty termios) ↔
    (client.atty.stderr = true → client.atty.stdout = true) := by
  have short : client.sentPtsSlave.length ≤ pathMax := by
    rw [sentPtsSlave]
    split
    · exact system.fits
    · exact Nat.zero_le _
  rcases client.accepted_request short accepted with ⟨argv, rfl⟩
  rcases client.request_onPty system argv with ⟨output, errors⟩
  have attached : ∀ descriptors,
      commandDescriptors { client.request with argv } fd ptsFile table = some descriptors →
      ∀ stream, stream < 3 → AttachedOrPassed { client.request with argv } ptsFile
        (descriptors.file stream) (client.passed stream) := by
    intro descriptors ran stream standard
    rcases commandDescriptors_attached daemon _ ptsFile ran with ⟨first, second, third⟩
    match stream with
    | 0 => exact first
    | 1 => exact second
    | 2 => exact third
  rw [nothingLost_iff]
  constructor
  · intro kept stderr
    exact kept.2 .stderr (errors.trans stderr)
  · intro pumped
    refine ⟨attached, fun stream onPty => ?_⟩
    cases stream with
    | stdout => exact output.symm.trans onPty
    | stderr => exact pumped (errors.symm.trans onPty)

def onTerminals (descriptors : DescriptorTable Nat) : Client Nat where
  pid := 100
  ppid := 99
  argv := [ascii "su", ascii "-c", ascii "id"]
  mountEmulatedStorage := none
  descriptors := descriptors
  isTty := fun file => decide (10 ≤ file)
  socketFile := 3
  ptmxFile := 4
  ptsSlave := ascii "/dev/pts/0"

/-- With the standard error redirected, everything that the command writes to its
standard output is on the terminal in the end. -/
theorem no_output_lost_on_terminals :
    (∀ descriptors,
      commandDescriptors (onTerminals [some 10, some 10, some 2]).request 3 24
        [some 20, some 21, some 22, some 23] = some descriptors →
      ∀ stream, stream < 3 →
        AttachedOrPassed (onTerminals [some 10, some 10, some 2]).request 24
          (descriptors.file stream)
          ((onTerminals [some 10, some 10, some 2]).passed stream)) ∧
      NothingLost { stdin := true, stdout := true, stderr := false }
        (Request.onPty (onTerminals [some 10, some 10, some 2]).request) loginTermios := by
  have system : (onTerminals [some 10, some 10, some 2]).OnSystem :=
    ⟨by decide, by decide, by decide⟩
  have daemon : DaemonTable 3 [some 20, some 21, some 22, some 23] := by
    refine ⟨?_, by omega, ⟨23, rfl⟩⟩
    intro stream standard
    match stream with
    | 0 => exact ⟨20, rfl⟩
    | 1 => exact ⟨21, rfl⟩
    | 2 => exact ⟨22, rfl⟩
  have accepted : daemonAccept (Socket.whole (connectDaemon
      (onTerminals [some 10, some 10, some 2]))) =
      .ok ((onTerminals [some 10, some 10, some 2]).request, Socket.whole []) := by
    decide +kernel
  exact (no_output_lost_iff _ system accepted daemon 24 loginTermios).mpr fun _ => rfl

/-- `su -c id > file`: the standard error of the command is the PTY, which the client
never reads; it returns the exit code with the byte that the command has written
nowhere. -/
theorem output_lost_with_redirected_stdout :
    daemonAccept (Socket.whole (connectDaemon (onTerminals [some 10, some 1, some 10]))) =
        .ok ((onTerminals [some 10, some 1, some 10]).request, Socket.whole []) ∧
      commandDescriptors (onTerminals [some 10, some 1, some 10]).request 3 24
        [some 20, some 21, some 22, some 23] = some [some 24, some 1, some 24, none, none] ∧
      ∃ events last,
        runClient events (ClientState.start (onTerminals [some 10, some 1, some 10]).atty
          (Request.onPty (onTerminals [some 10, some 1, some 10]).request) loginTermios) =
            some last ∧
          NoTransferFailed events ∧ last.ending = some .returned ∧
          ¬last.written.Sublist (terminalOutput last) := by
  refine ⟨by decide +kernel, by decide +kernel, .command .stderr [65] [65] :: rawSetup ++
    [ClientEvent.hangUp, .sendCode, .main (.moved 4), .main .ended], _, rfl, ?_, rfl, ?_⟩
  · rw [NoTransferFailed]
    decide
  · decide

end Client

end SuBinary.Su
