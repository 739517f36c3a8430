import SuBinary.Su.Protocol

/-! # The exit status on its way back to the caller

A command started by `su` is waited for by the process that ran `allow`, which
is waited for by the daemon-side `fork_for_samsung` parent, which is waited for
by `daemon_accept`; the daemon sends an integer to the client, whose own
`fork_for_samsung` parent finally exits towards the caller.
-/

namespace SuBinary.Su

/-! ## Process termination -/

/-- How a process ended, as a wait status reports it. -/
inductive Termination
  | exited (code : BitVec 8)
  | killed (signal : BitVec 7) (genuine : signal ≠ 0) (coreDumped : Bool)
deriving DecidableEq

/-- The Linux encoding: exit code in bits 8 to 15, signal in bits 0 to 6. -/
def Termination.waitStatus : Termination → BitVec 32
  | .exited code => code.setWidth 32 <<< 8
  | .killed signal _ coreDumped =>
      signal.setWidth 32 ||| (if coreDumped then 0x80 else 0)

/-- `exit(status)` delivers the low eight bits. -/
def exit (status : BitVec 32) : Termination :=
  .exited (status.setWidth 8)

def wexitstatus (status : BitVec 32) : BitVec 32 :=
  (status &&& 0xff00) >>> 8

/-! ## The processes -/

/-- The parent branch at the end of `allow`. -/
def allowParent (command : Termination) : Termination :=
  exit command.waitStatus

/-- The parent branch of `fork_for_samsung`; `none` when `wait` fails. -/
def forkForSamsung : Option Termination → Termination
  | none => exit 1
  | some child => exit (wexitstatus child.waitStatus)

/-- The code `daemon_accept` sends; `none` when `waitpid` fails. -/
def daemonAcceptCode : Option Termination → BitVec 32
  | none => -1
  | some child => wexitstatus child.waitStatus

/-- What the daemon writes on the socket: the acknowledgement, then the
code. -/
def daemonReply (code : BitVec 32) : List (WireByte File) :=
  writeInt 1 ++ writeInt code

/-- The reads of `connect_daemon` after the request is sent; its result is the
code it returns. -/
def receiveExitCode : Receive File (BitVec 32) := do
  let _ ← readInt
  readInt

/-- The client process that ran `connect_daemon`: `main` returns the code, and
a failed read ends in `exit(-1)`. -/
def connectDaemonProcess (reply : Socket Unit) : Termination :=
  match receiveExitCode reply with
  | .ok (code, _) => exit code
  | .error _ => exit (-1)

/-- The status with which `su` finally ends for its caller, when every wait
succeeds. -/
def suStatus (command : Termination) : Termination :=
  let childOfDaemon := forkForSamsung (some (allowParent command))
  let code := daemonAcceptCode (some childOfDaemon)
  forkForSamsung (some (connectDaemonProcess (Socket.whole (daemonReply code))))

/-- The caller sees the command's own exit code, or a non-zero code when a
signal killed it. -/
def StatusTransparent (command : Termination) : Prop :=
  match command with
  | .exited code => suStatus command = .exited code
  | .killed _ _ _ => ∃ code, code ≠ 0 ∧ suStatus command = .exited code

/-! ## The hops -/

@[simp] theorem wexitstatus_exited (code : BitVec 8) :
    wexitstatus (Termination.exited code).waitStatus = code.setWidth 32 := by
  apply BitVec.eq_of_getLsbD_eq
  intro index inside
  simp only [wexitstatus, Termination.waitStatus, BitVec.getLsbD_ushiftRight,
    BitVec.getLsbD_and, BitVec.getLsbD_shiftLeft, BitVec.getLsbD_setWidth]
  rcases Nat.lt_or_ge index 8 with low | high
  · have mask : (0xff00#32).getLsbD (8 + index) = true := by
      revert index
      decide
    simp [mask, show 8 + index < 32 by omega, inside]
  · simp [BitVec.getLsbD_of_ge code index high]

@[simp] theorem exit_setWidth (code : BitVec 8) :
    exit (code.setWidth 32) = .exited code := by
  simp [exit]

/-- Both `fork_for_samsung` parents hand a regular exit code on unchanged. -/
@[simp] theorem forkForSamsung_exited (code : BitVec 8) :
    forkForSamsung (some (.exited code)) = .exited code := by
  simp [forkForSamsung]

@[simp] theorem connectDaemonProcess_daemonReply (code : BitVec 8) :
    connectDaemonProcess (Socket.whole
      (daemonReply (daemonAcceptCode (some (.exited code))))) = .exited code := by
  have received : Receives Unit receiveExitCode
      (daemonReply (daemonAcceptCode (some (.exited code)))) _ :=
    (decodes_readInt 1).bind (decodes_readInt _)
  rw [connectDaemonProcess, received.exhausts]
  simp [daemonAcceptCode]

/-- Only the first hop changes the status: the caller sees the low byte of the
command's raw wait status. -/
theorem suStatus_eq_low_byte (command : Termination) :
    suStatus command = .exited (command.waitStatus.setWidth 8) := by
  have first : allowParent command = .exited (command.waitStatus.setWidth 8) := rfl
  simp [suStatus, first]

theorem waitStatus_low_byte_exited (code : BitVec 8) :
    (Termination.exited code).waitStatus.setWidth 8 = 0 := by
  apply BitVec.eq_of_getLsbD_eq
  intro index inside
  simp [Termination.waitStatus, inside]

theorem waitStatus_low_byte_killed (signal : BitVec 7) (genuine : signal ≠ 0)
    (coreDumped : Bool) :
    (Termination.killed signal genuine coreDumped).waitStatus.setWidth 8 ≠ 0 := by
  intro zero
  apply genuine
  apply BitVec.eq_of_getLsbD_eq
  intro index inside
  have bit := congrArg (fun word => word.getLsbD index) zero
  simp [Termination.waitStatus, show index < 8 by omega,
    show index < 32 by omega] at bit
  simpa using bit.1

/-- The exit status is transparent exactly for commands that are killed or
exit with code zero: `allow` passes the raw wait status to `exit`. -/
theorem statusTransparent_iff (command : Termination) :
    StatusTransparent command ↔ ∀ code, command = .exited code → code = 0 := by
  cases command with
  | exited code =>
      simp only [StatusTransparent, suStatus_eq_low_byte, waitStatus_low_byte_exited,
        Termination.exited.injEq, forall_eq']
      exact eq_comm
  | killed signal genuine coreDumped =>
      constructor
      · intro _ code impossible
        cases impossible
      · intro _
        exact ⟨_, waitStatus_low_byte_killed signal genuine coreDumped,
          suStatus_eq_low_byte _⟩

/-- A command that exits with code 1 is reported as successful. -/
theorem suStatus_exit_one_lost :
    suStatus (.exited 1) = .exited 0 ∧ ¬StatusTransparent (.exited 1) := by
  have lost : suStatus (.exited 1) = .exited 0 := by
    rw [suStatus_eq_low_byte, waitStatus_low_byte_exited]
  refine ⟨lost, ?_⟩
  rw [StatusTransparent]
  rw [lost]
  decide

end SuBinary.Su
