import SuBinary.Foundation.Runs
import SuBinary.Su.Protocol

/-! # The client after the acknowledgement

`connect_daemon` from the acknowledgement of its request to the end of the
process, with the helpers of `pts.c`: the main thread, the thread that pumps the
standard input, the signal handler, and at the other end of the PTY the command.
The threads, the command and the signals take turns in any order.
-/

namespace SuBinary.Su

open SuBinary

/-! ## Terminals -/

structure Termios where
  iflag : BitVec 32
  oflag : BitVec 32
  cflag : BitVec 32
  lflag : BitVec 32
  line : Byte
  cc : List Byte
deriving DecidableEq

def ignpar : BitVec 32 := 0x4
def istrip : BitVec 32 := 0x20
def inlcr : BitVec 32 := 0x40
def igncr : BitVec 32 := 0x80
def icrnl : BitVec 32 := 0x100
def ixon : BitVec 32 := 0x400
def ixany : BitVec 32 := 0x800
def ixoff : BitVec 32 := 0x1000
def opost : BitVec 32 := 0x1
def isig : BitVec 32 := 0x1
def icanon : BitVec 32 := 0x2
def echo : BitVec 32 := 0x8
def echoe : BitVec 32 := 0x10
def echok : BitVec 32 := 0x20
def echonl : BitVec 32 := 0x40
def vtime : Nat := 5
def vmin : Nat := 6

/-- The attributes that `set_stdin_raw` makes from the current ones. -/
def makeRaw (old : Termios) : Termios :=
  { old with
    iflag := (old.iflag ||| ignpar) &&&
      ~~~(istrip ||| inlcr ||| igncr ||| icrnl ||| ixon ||| ixany ||| ixoff)
    lflag := old.lflag &&& ~~~(isig ||| icanon ||| echo ||| echoe ||| echok ||| echonl)
    oflag := old.oflag &&& ~~~opost
    cc := (old.cc.set vmin 1).set vtime 0 }

/-! ## Places in the program -/

inductive QuitSignal
  | alrm
  | hup
  | pipe
  | quit
  | term
  | int
deriving DecidableEq

def quitSignals : List QuitSignal := [.alrm, .hup, .pipe, .quit, .term, .int]

/-- What the main thread does next: `setup_sighandlers`, `set_stdin_raw`,
`pump_async`, `pump_ex`, `restore_stdin`, `watch_sigwinch_cleanup`, and the exit
code. -/
inductive MainPoint
  | install (sig : QuitSignal) (rest : List QuitSignal)
  | getAttr
  | setRaw
  | setFlag
  | startPump
  | readPty
  | writeOut
  | closePty
  | testRaw
  | restore
  | clearFlag
  | cleanup
  | readCode
  | finish
deriving DecidableEq

/-- What the thread that pumps the standard input does next; `left` bytes of its
buffer are still to be written. -/
inductive PumpPoint
  | idle
  | readStdin
  | writePty (left : Nat)
  | closeStdin
  | closePtmx
  | done
deriving DecidableEq

/-- How the process ended: by the default action of a signal, by `exit(-1)`, or
by returning the exit code. -/
inductive ClientEnd
  | killed
  | gaveUp
  | returned
deriving DecidableEq

inductive OutputStream
  | stdout
  | stderr
deriving DecidableEq

/-! ## The state -/

/-- The standard input and what the program keeps about it. `termios` are the
attributes of the terminal that it was at the start, `oldStdin` and `isRaw` the
static variables of `pts.c`; `handled` are the signals whose handler is
`sighandler`, the others have their default action. -/
structure StdinState where
  isOpen : Bool
  termios : Termios
  oldStdin : Termios
  isRaw : Bool
  handled : QuitSignal → Bool

/-- `queue` holds what has arrived at the PTY master, `buffer` what `pump_ex` has
read and not written yet; `written` is everything the command has written to the
PTY, `output` everything the client has written to its standard output. -/
structure ClientState where
  atty : Atty
  onPty : OutputStream → Bool
  main : MainPoint
  pump : PumpPoint
  stdin : StdinState
  queue : List Byte
  hungUp : Bool
  codeSent : Bool
  buffer : List Byte
  written : List Byte
  output : List Byte
  ending : Option ClientEnd

/-- The loop of `setup_sighandlers`. -/
def installNext : List QuitSignal → MainPoint
  | [] => .getAttr
  | sig :: rest => .install sig rest

def afterStdin (atty : Atty) : MainPoint :=
  if atty.stdout then .readPty else .readCode

def StdinState.start (termios : Termios) : StdinState where
  isOpen := true
  termios := termios
  oldStdin := { iflag := 0, oflag := 0, cflag := 0, lflag := 0, line := 0, cc := [] }
  isRaw := false
  handled := fun _ => false

def ClientState.start (atty : Atty) (onPty : OutputStream → Bool) (termios : Termios) :
    ClientState where
  atty := atty
  onPty := onPty
  main := if atty.stdin then installNext quitSignals else afterStdin atty
  pump := .idle
  stdin := StdinState.start termios
  queue := []
  hungUp := false
  codeSent := false
  buffer := []
  written := []
  output := []
  ending := none

inductive Transfer
  | moved (count : Nat)
  | ended
  | failed
deriving DecidableEq

/-- `arriving` is what the line discipline makes of the bytes of the command; it
can add to them, and it can echo input. -/
inductive ClientEvent
  | main (io : Transfer)
  | pump (io : Transfer)
  | signal (sig : QuitSignal)
  | command (stream : OutputStream) (bytes arriving : List Byte)
  | echoed (bytes : List Byte)
  | hangUp
  | sendCode
deriving DecidableEq

/-! ## Steps -/

namespace StdinState

variable (stdin : StdinState)

def install (sig : QuitSignal) : StdinState :=
  { stdin with handled := fun other => if other = sig then true else stdin.handled other }

/-- `tcsetattr` succeeds as long as the standard input is open. -/
def restoreStdin : StdinState :=
  if stdin.isRaw = false then stdin
  else if stdin.isOpen then { stdin with termios := stdin.oldStdin, isRaw := false }
  else stdin

/-- The handler runs to completion. That it closes the other standard streams as
well shows in the results of later reads and writes. -/
def sighandler : StdinState :=
  { stdin.restoreStdin with
    isOpen := false
    handled := fun _ => false }

end StdinState

namespace ClientState

variable (s : ClientState)

/-- `read` on the PTY master: bytes that have arrived, or the end once the command
has hung up and everything is read. -/
def readPty : Transfer → Option ClientState
  | .moved count =>
      if 0 < count ∧ count ≤ 4096 ∧ count ≤ s.queue.length then
        some { s with
          buffer := s.queue.take count
          queue := s.queue.drop count
          main := .writeOut }
      else none
  | .ended =>
      if s.queue = [] ∧ s.hungUp then some { s with main := .closePty } else none
  | .failed => some { s with main := .closePty }

/-- One `write` of `write_blocking`, to the standard output. -/
def writeOut : Transfer → Option ClientState
  | .moved count =>
      if count ≤ s.buffer.length then
        some { s with
          output := s.output ++ s.buffer.take count
          buffer := s.buffer.drop count
          main := if s.buffer.drop count = [] then .readPty else .writeOut }
      else none
  | .ended => none
  | .failed => some { s with main := .closePty }

/-- `read_int` for the exit code. -/
def readCode : Transfer → Option ClientState
  | .moved count =>
      if s.codeSent then
        if count = 4 then some { s with main := .finish }
        else some { s with ending := some .gaveUp }
      else none
  | .ended => some { s with ending := some .gaveUp }
  | .failed => some { s with ending := some .gaveUp }

def mainStep (io : Transfer) : Option ClientState :=
  match s.main with
  | .install sig rest =>
      some { s with stdin := s.stdin.install sig, main := installNext rest }
  | .getAttr =>
      if s.stdin.isOpen then
        some { s with stdin := { s.stdin with oldStdin := s.stdin.termios }, main := .setRaw }
      else some { s with main := .startPump }
  | .setRaw =>
      if s.stdin.isOpen then
        some { s with
          stdin := { s.stdin with termios := makeRaw s.stdin.oldStdin }
          main := .setFlag }
      else some { s with main := .startPump }
  | .setFlag => some { s with stdin := { s.stdin with isRaw := true }, main := .startPump }
  | .startPump => some { s with pump := .readStdin, main := afterStdin s.atty }
  | .readPty => s.readPty io
  | .writeOut => s.writeOut io
  | .closePty => some { s with main := .testRaw }
  | .testRaw => some { s with main := if s.stdin.isRaw then .restore else .cleanup }
  | .restore =>
      if s.stdin.isOpen then
        some { s with
          stdin := { s.stdin with termios := s.stdin.oldStdin }
          main := .clearFlag }
      else some { s with main := .cleanup }
  | .clearFlag => some { s with stdin := { s.stdin with isRaw := false }, main := .cleanup }
  | .cleanup => some { s with main := .readCode }
  | .readCode => s.readCode io
  | .finish => some { s with ending := some .returned }

def pumpStep (io : Transfer) : Option ClientState :=
  match s.pump with
  | .idle => none
  | .readStdin =>
      match io with
      | .moved count =>
          if 0 < count ∧ count ≤ 4096 then some { s with pump := .writePty count } else none
      | .ended => some { s with pump := .closeStdin }
      | .failed => some { s with pump := .closeStdin }
  | .writePty left =>
      match io with
      | .moved count =>
          if count ≤ left then
            some { s with pump := if left = count then .readStdin else .writePty (left - count) }
          else none
      | .ended => none
      | .failed => some { s with pump := .closeStdin }
  | .closeStdin => some { s with stdin := { s.stdin with isOpen := false }, pump := .closePtmx }
  | .closePtmx => some { s with pump := .done }
  | .done => none

/-- A write of the command to one of its streams; the PTY takes it until the last
descriptor of its slave is closed. -/
def commandWrites (stream : OutputStream) (bytes arriving : List Byte) : Option ClientState :=
  if s.onPty stream then
    if s.hungUp = false ∧ bytes.isSublist arriving then
      some { s with written := s.written ++ bytes, queue := s.queue ++ arriving }
    else none
  else some s

/-! ## What the transfers can do -/

variable {s} {next : ClientState} {io : Transfer}

theorem readPty_cases (stepped : s.readPty io = some next) :
    (∃ count, io = .moved count ∧
      next =
        { s with
          buffer := s.queue.take count
          queue := s.queue.drop count
          main := .writeOut }) ∨
    (io = .ended ∧ s.queue = [] ∧ s.hungUp = true ∧ next = { s with main := .closePty }) ∨
    (io = .failed ∧ next = { s with main := .closePty }) := by
  cases io with
  | moved count =>
      simp only [readPty, Option.ite_none_right_eq_some, Option.some.injEq] at stepped
      exact Or.inl ⟨count, rfl, stepped.2.symm⟩
  | ended =>
      simp only [readPty, Option.ite_none_right_eq_some, Option.some.injEq] at stepped
      exact Or.inr (Or.inl ⟨rfl, stepped.1.1, stepped.1.2, stepped.2.symm⟩)
  | failed => exact Or.inr (Or.inr ⟨rfl, (Option.some.inj stepped).symm⟩)

theorem writeOut_cases (stepped : s.writeOut io = some next) :
    (∃ count, io = .moved count ∧
      next =
        { s with
          output := s.output ++ s.buffer.take count
          buffer := s.buffer.drop count
          main := if s.buffer.drop count = [] then .readPty else .writeOut }) ∨
    (io = .failed ∧ next = { s with main := .closePty }) := by
  cases io with
  | moved count =>
      simp only [writeOut, Option.ite_none_right_eq_some, Option.some.injEq] at stepped
      exact Or.inl ⟨count, rfl, stepped.2.symm⟩
  | ended => cases stepped
  | failed => exact Or.inr ⟨rfl, (Option.some.inj stepped).symm⟩

theorem commandWrites_cases {stream : OutputStream} {bytes arriving : List Byte}
    (stepped : s.commandWrites stream bytes arriving = some next) :
    (s.onPty stream = true ∧ s.hungUp = false ∧ bytes.isSublist arriving = true ∧
      next =
        { s with
          written := s.written ++ bytes
          queue := s.queue ++ arriving }) ∨
    (s.onPty stream = false ∧ next = s) := by
  rw [commandWrites] at stepped
  split at stepped
  · rename_i isOnPty
    simp only [Option.ite_none_right_eq_some, Option.some.injEq] at stepped
    exact Or.inl ⟨isOnPty, stepped.1.1, stepped.1.2, stepped.2.symm⟩
  · rename_i notOnPty
    exact Or.inr ⟨by simpa using notOnPty, (Option.some.inj stepped).symm⟩

theorem readCode_cases (stepped : s.readCode io = some next) :
    next = { s with main := .finish } ∨ next = { s with ending := some .gaveUp } := by
  cases io with
  | moved count =>
      simp only [readCode, Option.ite_none_right_eq_some] at stepped
      rcases stepped with ⟨-, stepped⟩
      split at stepped
      · exact Or.inl (Option.some.inj stepped).symm
      · exact Or.inr (Option.some.inj stepped).symm
  | ended | failed => exact Or.inr (Option.some.inj stepped).symm

inductive MainStep (s : ClientState) (io : Transfer) : ClientState → Prop
  | install (sig : QuitSignal) (rest : List QuitSignal) (point : s.main = .install sig rest) :
      MainStep s io { s with stdin := s.stdin.install sig, main := installNext rest }
  | getAttr (point : s.main = .getAttr) (isOpen : s.stdin.isOpen = true) :
      MainStep s io
        { s with stdin := { s.stdin with oldStdin := s.stdin.termios }, main := .setRaw }
  | setRaw (point : s.main = .setRaw) (isOpen : s.stdin.isOpen = true) :
      MainStep s io
        { s with stdin := { s.stdin with termios := makeRaw s.stdin.oldStdin }, main := .setFlag }
  | skipRaw (point : s.main = .getAttr ∨ s.main = .setRaw) (closed : s.stdin.isOpen = false) :
      MainStep s io { s with main := .startPump }
  | setFlag (point : s.main = .setFlag) :
      MainStep s io { s with stdin := { s.stdin with isRaw := true }, main := .startPump }
  | startPump (point : s.main = .startPump) :
      MainStep s io { s with pump := .readStdin, main := afterStdin s.atty }
  | readPty (count : Nat) (point : s.main = .readPty) (moved : io = .moved count) :
      MainStep s io
        { s with buffer := s.queue.take count, queue := s.queue.drop count, main := .writeOut }
  | endPty (point : s.main = .readPty) (ended : io = .ended) (emptied : s.queue = [])
      (hungUp : s.hungUp = true) : MainStep s io { s with main := .closePty }
  | writeOut (count : Nat) (point : s.main = .writeOut) (moved : io = .moved count) :
      MainStep s io
        { s with
          output := s.output ++ s.buffer.take count
          buffer := s.buffer.drop count
          main := if s.buffer.drop count = [] then .readPty else .writeOut }
  | failPty (point : s.main = .readPty ∨ s.main = .writeOut) (failed : io = .failed) :
      MainStep s io { s with main := .closePty }
  | closePty (point : s.main = .closePty) : MainStep s io { s with main := .testRaw }
  | testRaw (point : s.main = .testRaw) :
      MainStep s io { s with main := if s.stdin.isRaw then .restore else .cleanup }
  | restore (point : s.main = .restore) (isOpen : s.stdin.isOpen = true) :
      MainStep s io
        { s with stdin := { s.stdin with termios := s.stdin.oldStdin }, main := .clearFlag }
  | skipRestore (point : s.main = .restore) (closed : s.stdin.isOpen = false) :
      MainStep s io { s with main := .cleanup }
  | clearFlag (point : s.main = .clearFlag) :
      MainStep s io { s with stdin := { s.stdin with isRaw := false }, main := .cleanup }
  | cleanup (point : s.main = .cleanup) : MainStep s io { s with main := .readCode }
  | readCode (point : s.main = .readCode) : MainStep s io { s with main := .finish }
  | giveUp (point : s.main = .readCode) : MainStep s io { s with ending := some .gaveUp }
  | finish (point : s.main = .finish) : MainStep s io { s with ending := some .returned }

theorem MainStep.of_mainStep (stepped : s.mainStep io = some next) : MainStep s io next := by
  rw [mainStep] at stepped
  cases point : s.main with
  | install sig rest =>
      simp only [point] at stepped
      cases stepped
      exact .install sig rest point
  | getAttr =>
      simp only [point] at stepped
      split at stepped
      · rename_i isOpen
        cases stepped
        exact .getAttr point isOpen
      · rename_i closed
        cases stepped
        exact .skipRaw (Or.inl point) (by simpa using closed)
  | setRaw =>
      simp only [point] at stepped
      split at stepped
      · rename_i isOpen
        cases stepped
        exact .setRaw point isOpen
      · rename_i closed
        cases stepped
        exact .skipRaw (Or.inr point) (by simpa using closed)
  | setFlag =>
      simp only [point] at stepped
      cases stepped
      exact .setFlag point
  | startPump =>
      simp only [point] at stepped
      cases stepped
      exact .startPump point
  | readPty =>
      simp only [point] at stepped
      rcases readPty_cases stepped with
        ⟨count, moved, rfl⟩ | ⟨ended, emptied, hungUp, rfl⟩ | ⟨failed, rfl⟩
      · exact .readPty count point moved
      · exact .endPty point ended emptied hungUp
      · exact .failPty (Or.inl point) failed
  | writeOut =>
      simp only [point] at stepped
      rcases writeOut_cases stepped with ⟨count, moved, rfl⟩ | ⟨failed, rfl⟩
      · exact .writeOut count point moved
      · exact .failPty (Or.inr point) failed
  | closePty =>
      simp only [point] at stepped
      cases stepped
      exact .closePty point
  | testRaw =>
      simp only [point] at stepped
      cases stepped
      exact .testRaw point
  | restore =>
      simp only [point] at stepped
      split at stepped
      · rename_i isOpen
        cases stepped
        exact .restore point isOpen
      · rename_i closed
        cases stepped
        exact .skipRestore point (by simpa using closed)
  | clearFlag =>
      simp only [point] at stepped
      cases stepped
      exact .clearFlag point
  | cleanup =>
      simp only [point] at stepped
      cases stepped
      exact .cleanup point
  | readCode =>
      simp only [point] at stepped
      rcases readCode_cases stepped with rfl | rfl
      · exact .readCode point
      · exact .giveUp point
  | finish =>
      simp only [point] at stepped
      rw [← point] at stepped
      cases stepped
      exact .finish point

structure MainFrame (s next : ClientState) : Prop where
  atty : next.atty = s.atty
  onPty : next.onPty = s.onPty
  written : next.written = s.written
  ending : next.ending = s.ending ∨ next.ending = some .gaveUp ∨ next.main = .finish

theorem mainStep_frame (stepped : s.mainStep io = some next) : MainFrame s next := by
  cases MainStep.of_mainStep stepped with
  | giveUp point => exact ⟨rfl, rfl, rfl, Or.inr (Or.inl rfl)⟩
  | finish point => exact ⟨rfl, rfl, rfl, Or.inr (Or.inr point)⟩
  | _ => exact ⟨rfl, rfl, rfl, Or.inl rfl⟩

theorem pumpStep_cases (stepped : s.pumpStep io = some next) :
    (s.pump = .closeStdin ∧
      next = { s with stdin := { s.stdin with isOpen := false }, pump := .closePtmx }) ∨
    (s.pump ≠ .idle ∧ s.pump ≠ .closeStdin ∧ ∃ pump, next = { s with pump }) := by
  unfold pumpStep at stepped
  cases point : s.pump with
  | idle | done => simp [point] at stepped
  | closeStdin =>
      simp only [point, Option.some.injEq] at stepped
      exact Or.inl ⟨rfl, stepped.symm⟩
  | closePtmx =>
      simp only [point, Option.some.injEq] at stepped
      exact Or.inr ⟨by simp, by simp, _, stepped.symm⟩
  | readStdin =>
      refine Or.inr ⟨by simp, by simp, ?_⟩
      simp only [point] at stepped
      cases io with
      | moved count =>
          simp only [Option.ite_none_right_eq_some, Option.some.injEq] at stepped
          exact ⟨_, stepped.2.symm⟩
      | ended | failed => exact ⟨_, (Option.some.inj stepped).symm⟩
  | writePty left =>
      refine Or.inr ⟨by simp, by simp, ?_⟩
      simp only [point] at stepped
      cases io with
      | moved count =>
          simp only [Option.ite_none_right_eq_some, Option.some.injEq] at stepped
          exact ⟨_, stepped.2.symm⟩
      | ended => cases stepped
      | failed => exact ⟨_, (Option.some.inj stepped).symm⟩

end ClientState

def ClientState.turn (s : ClientState) : ClientEvent → Option ClientState
  | .main io => s.mainStep io
  | .pump io => s.pumpStep io
  | .signal sig =>
      if s.stdin.handled sig then some { s with stdin := s.stdin.sighandler }
      else some { s with ending := some .killed }
  | .command stream bytes arriving => s.commandWrites stream bytes arriving
  | .echoed bytes => some { s with queue := s.queue ++ bytes }
  | .hangUp => some { s with hungUp := true }
  | .sendCode => some { s with codeSent := true }

/-- A process that has ended takes no step. -/
def clientStep (event : ClientEvent) (s : ClientState) : Option ClientState :=
  if s.ending.isSome then none else s.turn event

theorem clientStep_eq_some {event : ClientEvent} {s next : ClientState}
    (stepped : clientStep event s = some next) : s.ending = none ∧ s.turn event = some next := by
  rw [clientStep] at stepped
  split at stepped
  · cases stepped
  · rename_i running
    exact ⟨by simpa using running, stepped⟩

structure StepFrame (s next : ClientState) : Prop where
  atty : next.atty = s.atty
  onPty : next.onPty = s.onPty
  returned : next.ending = some .returned → next.main = .finish

theorem clientStep_frame {event : ClientEvent} {s next : ClientState}
    (stepped : clientStep event s = some next) : StepFrame s next := by
  rcases clientStep_eq_some stepped with ⟨running, turned⟩
  have notReturned : s.ending ≠ some .returned := by simp [running]
  cases event with
  | main io =>
      have frame := ClientState.mainStep_frame turned
      refine ⟨frame.atty, frame.onPty, fun returned => ?_⟩
      rcases frame.ending with same | gaveUp | finished
      · exact absurd (same.symm.trans returned) notReturned
      · cases gaveUp.symm.trans returned
      · exact finished
  | pump io =>
      rcases ClientState.pumpStep_cases turned with ⟨-, rfl⟩ | ⟨-, -, pump, rfl⟩
      all_goals exact ⟨rfl, rfl, fun returned => absurd returned notReturned⟩
  | signal sig =>
      simp only [ClientState.turn] at turned
      split at turned
      · cases turned
        exact ⟨rfl, rfl, fun returned => absurd returned notReturned⟩
      · cases turned
        exact ⟨rfl, rfl, fun returned => nomatch returned⟩
  | command stream bytes arriving =>
      rcases ClientState.commandWrites_cases turned with ⟨-, -, -, rfl⟩ | ⟨-, rfl⟩
      all_goals exact ⟨rfl, rfl, fun returned => absurd returned notReturned⟩
  | echoed _ | hangUp | sendCode =>
      cases turned
      exact ⟨rfl, rfl, fun returned => absurd returned notReturned⟩

abbrev runClient (events : List ClientEvent) (s : ClientState) : Option ClientState :=
  runSteps clientStep events s

/-! ## An example -/

def loginTermios : Termios where
  iflag := 0x500
  oflag := 0x5
  cflag := 0xbf
  lflag := 0x8a3b
  line := 0
  cc := [3, 28, 127, 21, 4, 0, 1, 0, 17, 19, 26, 0, 18, 15, 23, 22, 0, 0, 0]

/-- Up to the start of the pumps: six handlers, the attributes, the flag and the
thread. -/
def rawSetup : List ClientEvent :=
  List.replicate 10 (.main .ended)

end SuBinary.Su
