import SuBinary.Foundation.CString
import SuBinary.Foundation.Decoder

/-! # The request protocol between `su` and its daemon

`connect_daemon` writes a request as a sequence of native integers,
length-prefixed strings and descriptor messages on a stream socket;
`daemon_accept` reads it back with the mirror-image calls.
-/

namespace SuBinary.Su

open SuBinary

/-! ## The wire -/

/-- One byte on the stream. A descriptor sent with `SCM_RIGHTS` travels with
the byte of its message. -/
structure WireByte (File : Type) where
  byte : Byte
  descriptor : Option File
deriving DecidableEq

/-- The receiving end of the stream. `schedule` bounds what each coming `read`
returns; once it is exhausted every `read` returns its full length. -/
structure Socket (File : Type) where
  incoming : List (WireByte File)
  schedule : List Nat
deriving DecidableEq

def Socket.whole (items : List (WireByte File)) : Socket File where
  incoming := items
  schedule := []

/-- The ways the request helpers give up; each of them logs and calls
`exit(-1)`. -/
inductive Failure
  | readInt (len : Nat)
  | stringLength (len : Int)
  | readString
  | readFd
  | allocateArgs (argc : Int)
deriving DecidableEq

def Failure.message : Failure → String
  | .readInt len => "unable to read int: " ++ toString len
  | .stringLength len => "invalid string length " ++ toString len
  | .readString => "unable to read string"
  | .readFd => "unable to read fd"
  | .allocateArgs argc => "unable to allocate args: " ++ toString argc

abbrev Receive (File : Type) := Decoder Failure (Socket File)

/-- `read(fd, buf, count)`, yielding the bytes stored in `buf`. A descriptor
attached to a byte taken by `read` is lost. -/
def read (count : Nat) : Receive File (List Byte) := fun socket =>
  let amount := match socket.schedule with
    | [] => count
    | limit :: _ => min count (max 1 limit)
  .ok ((socket.incoming.take amount).map (·.byte),
    { incoming := socket.incoming.drop amount
      schedule := socket.schedule.tail })

def plainBytes (bytes : List Byte) : List (WireByte File) :=
  bytes.map fun byte => { byte, descriptor := none }

/-! ## Integers -/

/-- A native `int` in little-endian byte order. -/
def intBytes (value : BitVec 32) : List Byte :=
  [.ofBitVec (value.extractLsb' 0 8), .ofBitVec (value.extractLsb' 8 8),
    .ofBitVec (value.extractLsb' 16 8), .ofBitVec (value.extractLsb' 24 8)]

def intOfBytes : List Byte → BitVec 32
  | [first, second, third, fourth] =>
      fourth.toBitVec ++ third.toBitVec ++ second.toBitVec ++ first.toBitVec
  | _ => 0

@[simp] theorem length_intBytes (value : BitVec 32) : (intBytes value).length = 4 :=
  rfl

@[simp] theorem intOfBytes_intBytes (value : BitVec 32) :
    intOfBytes (intBytes value) = value := by
  apply BitVec.eq_of_getLsbD_eq
  intro index inside
  simp only [intOfBytes, intBytes, BitVec.getLsbD_append, BitVec.getLsbD_extractLsb']
  rcases Nat.lt_or_ge index 8 with low | low
  · simp [low]
  rcases Nat.lt_or_ge index 16 with middle | middle
  · have position : 8 + (index - 8) = index := by omega
    simp [show ¬index < 8 by omega, show index - 8 < 8 by omega, position]
  rcases Nat.lt_or_ge index 24 with high | high
  · have position : 16 + (index - 8 - 8) = index := by omega
    simp [show ¬index < 8 by omega, show ¬index - 8 < 8 by omega,
      show index - 8 - 8 < 8 by omega, position]
  · have position : 24 + (index - 8 - 8 - 8) = index := by omega
    simp [show ¬index < 8 by omega, show ¬index - 8 < 8 by omega,
      show ¬index - 8 - 8 < 8 by omega, show index - 8 - 8 - 8 < 8 by omega, position]

def writeInt (value : BitVec 32) : List (WireByte File) :=
  plainBytes (intBytes value)

def readInt : Receive File (BitVec 32) := do
  let val ← read 4
  if val.length ≠ 4 then
    throw (.readInt val.length)
  return intOfBytes val

/-! ## Strings -/

def writeString (val : CString) : List (WireByte File) :=
  writeInt (BitVec.ofNat 32 val.length) ++ plainBytes val

/-- The result is the content of the allocated buffer, which the code
terminates with a NUL after its last byte. -/
def readString : Receive File CString := do
  let len ← readInt
  if len.toInt > pathMax ∨ len.toInt < 0 then
    throw (.stringLength len.toInt)
  let val ← read len.toNat
  if val.length ≠ len.toNat then
    throw .readString
  return val

/-! ## Descriptors -/

abbrev DescriptorTable (File : Type) := List (Option File)

namespace DescriptorTable

def file (table : DescriptorTable File) (fd : Nat) : Option File :=
  (table[fd]?).join

/-- A new descriptor takes the lowest free number. -/
def allocate (opened : File) : DescriptorTable File → DescriptorTable File
  | [] => [some opened]
  | none :: rest => some opened :: rest
  | some file :: rest => some file :: allocate opened rest

theorem file_allocate {table : DescriptorTable File} {opened file : File} {fd : Nat}
    (present : table.file fd = some file) :
    (table.allocate opened).file fd = some file := by
  induction table generalizing fd with
  | nil => simp [DescriptorTable.file] at present
  | cons head tail induction =>
      cases fd with
      | zero =>
          cases head with
          | none => simp [DescriptorTable.file] at present
          | some other => simpa [DescriptorTable.file, allocate] using present
      | succ fd =>
          cases head with
          | none => simpa [DescriptorTable.file, allocate] using present
          | some other =>
              have later : DescriptorTable.file tail fd = some file := by
                simpa [DescriptorTable.file] using present
              simpa [DescriptorTable.file, allocate] using induction later

end DescriptorTable

/-- `fd` is `none` for the source's `-1`. A closed descriptor sends the dummy
byte alone, as `-1` does. -/
def sendFd (table : DescriptorTable File) (fd : Option Nat) : List (WireByte File) :=
  [{ byte := 0, descriptor := fd.bind table.file }]

/-- The result is `none` for the source's `-1`: no control message came. -/
def recvFd : Receive File (Option File) := fun socket =>
  match socket.incoming with
  | [] => .error .readFd
  | message :: rest => .ok (message.descriptor, { socket with incoming := rest })

/-! ## The client -/

/-- What `connect_daemon` finds in its process. `socketFile` and `ptmxFile`
are the files `socket` and `pts_open` open, `ptsSlave` the name `pts_open`
stores; `mountEmulatedStorage` is the result of `getenv`. -/
structure Client (File : Type) where
  pid : BitVec 32
  ppid : BitVec 32
  argv : List CString
  mountEmulatedStorage : Option CString
  descriptors : DescriptorTable File
  isTty : File → Bool
  socketFile : File
  ptmxFile : File
  ptsSlave : CString

/-- The `atty` bit field: which standard streams are attached to a TTY. -/
structure Atty where
  stdin : Bool
  stdout : Bool
  stderr : Bool

def Atty.any (atty : Atty) : Bool := atty.stdin || atty.stdout || atty.stderr

namespace Client

variable {File : Type} (client : Client File)

def argc : Nat := client.argv.length

def mountStorage : Bool := client.mountEmulatedStorage.isSome

def connected : DescriptorTable File :=
  client.descriptors.allocate client.socketFile

def isatty (fd : Nat) : Bool :=
  (client.connected.file fd).any client.isTty

def atty : Atty where
  stdin := client.isatty 0
  stdout := client.isatty 1
  stderr := client.isatty 2

/-- The table from which descriptors are sent: a PTY master is opened as soon
as one stream is a TTY. -/
def sending : DescriptorTable File :=
  if client.atty.any then client.connected.allocate client.ptmxFile
  else client.connected

def sentPtsSlave : CString :=
  if client.atty.any then client.ptsSlave else []

def streamFd (fd : Nat) : Option Nat :=
  if client.isatty fd then none else some fd

def announcedArgc : BitVec 32 :=
  if client.mountStorage then BitVec.ofNat 32 client.argc - 1
  else BitVec.ofNat 32 client.argc

def sentArgs : List CString :=
  if client.mountStorage then client.argv.eraseIdx 1 else client.argv

end Client

/-- The argument loop, from index `i` on: the word at index 1 is the mount
flag and is not sent when storage is to be mounted. -/
def writeArgs (mountStorage : Bool) : Nat → List CString → List (WireByte File)
  | _, [] => []
  | i, arg :: rest =>
      (if i = 1 ∧ mountStorage then [] else writeString arg) ++
        writeArgs mountStorage (i + 1) rest

/-- Everything `connect_daemon` writes before it waits for the
acknowledgement. -/
def connectDaemon (client : Client File) : List (WireByte File) :=
  writeInt client.pid ++ writeString client.sentPtsSlave ++
    writeInt client.ppid ++ writeInt (if client.mountStorage then 1 else 0) ++
    sendFd client.sending (client.streamFd 0) ++
    sendFd client.sending (client.streamFd 1) ++
    sendFd client.sending (client.streamFd 2) ++
    writeInt client.announcedArgc ++
    writeArgs client.mountStorage 0 client.argv

/-! ## The daemon -/

/-- What `daemon_accept` learns from the stream. -/
structure Request (File : Type) where
  pid : BitVec 32
  ptsSlave : CString
  daemonFromPid : BitVec 32
  mountStorage : BitVec 32
  infd : Option File
  outfd : Option File
  errfd : Option File
  argv : List CString
deriving DecidableEq

def maxArgs : Nat := 512

def readArgs : Receive File (List CString) := do
  let argc ← readInt
  if argc.toInt < 0 ∨ argc.toInt > maxArgs then
    throw (.allocateArgs argc.toInt)
  Decoder.times readString argc.toNat

/-- The read sequence of `daemon_accept`, up to the acknowledgement. -/
def daemonAccept : Receive File (Request File) := do
  let pid ← readInt
  let ptsSlave ← readString
  let daemonFromPid ← readInt
  let mountStorage ← readInt
  let infd ← recvFd
  let outfd ← recvFd
  let errfd ← recvFd
  let argv ← readArgs
  return { pid, ptsSlave, daemonFromPid, mountStorage, infd, outfd, errfd, argv }

/-! ## Reading back single items -/

section

variable {File : Type}

open Decoder

/-- With full-length reads, `receive` reads exactly `items` and yields
`value`. -/
abbrev Receives (File : Type) (receive : Receive File α)
    (items : List (WireByte File)) (value : α) : Prop :=
  Decodes Socket.whole receive items value

@[simp] theorem map_byte_plainBytes (bytes : List Byte) :
    (@plainBytes File bytes).map (·.byte) = bytes := by
  simp only [plainBytes, List.map_map]
  exact List.map_id bytes

@[simp] theorem length_plainBytes (bytes : List Byte) :
    (@plainBytes File bytes).length = bytes.length := by
  simp [plainBytes]

theorem decodes_read (bytes : List Byte) :
    Receives File (read bytes.length)
      (plainBytes bytes) bytes := by
  intro rest
  have taken : (plainBytes bytes ++ rest).take bytes.length = plainBytes bytes :=
    List.take_left' (by simp)
  have left : (plainBytes bytes ++ rest).drop bytes.length = rest :=
    List.drop_left' (by simp)
  simp [read, Socket.whole, taken, left]

theorem decodes_readInt (value : BitVec 32) :
    Receives File readInt (writeInt value) value := by
  rw [← List.append_nil (writeInt value)]
  apply (decodes_read (intBytes value)).bind
  simpa using Decodes.pure value

theorem small_int {value : Nat} (small : value < 2 ^ 31) :
    (BitVec.ofNat 32 value).toNat = value ∧ (BitVec.ofNat 32 value).toInt = value := by
  have asNat : (BitVec.ofNat 32 value).toNat = value := by
    rw [BitVec.toNat_ofNat]
    omega
  exact ⟨asNat, by rw [BitVec.toInt_eq_toNat_of_lt (by omega), asNat]⟩

theorem decodes_readString (val : CString) (short : val.length ≤ pathMax) :
    Receives File readString (writeString val) val := by
  have bound : val.length < 2 ^ 31 := by
    rw [pathMax] at short
    omega
  rcases small_int bound with ⟨asNat, asInt⟩
  apply (decodes_readInt _).bind
  rw [← List.append_nil (plainBytes val)]
  simp only [asInt, asNat]
  rw [if_neg (by omega)]
  apply (decodes_read val).bind
  simpa using Decodes.pure val

theorem decodes_recvFd (table : DescriptorTable File) (fd : Option Nat) :
    Receives File recvFd (sendFd table fd)
      (fd.bind table.file) :=
  fun _ => rfl

/-! ## The argument list -/

/-- From index 2 on nothing is skipped. -/
theorem writeArgs_past_flag (mountStorage : Bool) (i : Nat) (past : 2 ≤ i)
    (args : List CString) :
    @writeArgs File mountStorage i args = args.flatMap writeString := by
  induction args generalizing i with
  | nil => rfl
  | cons arg rest induction =>
      rw [writeArgs, induction (i + 1) (by omega), if_neg (by omega)]
      rfl

theorem writeArgs_eq_sentArgs (client : Client File) :
    @writeArgs File client.mountStorage 0 client.argv =
      client.sentArgs.flatMap writeString := by
  rw [Client.sentArgs]
  cases mount : client.mountStorage with
  | false =>
      match client.argv with
      | [] => rfl
      | [program] => simp [writeArgs]
      | program :: word :: rest =>
          simp [writeArgs, writeArgs_past_flag]
  | true =>
      match client.argv with
      | [] => rfl
      | [program] => simp [writeArgs]
      | program :: word :: rest =>
          simp [writeArgs, writeArgs_past_flag]

theorem decodes_readArgs (args : List CString) (few : args.length ≤ maxArgs)
    (short : ∀ arg, arg ∈ args → arg.length ≤ pathMax) :
    Receives File readArgs
      (writeInt (BitVec.ofNat 32 args.length) ++ args.flatMap writeString) args := by
  have bound : args.length < 2 ^ 31 := by
    rw [maxArgs] at few
    omega
  rcases small_int bound with ⟨asNat, asInt⟩
  apply (decodes_readInt _).bind
  simp only [asInt, asNat]
  rw [if_neg (by omega)]
  exact Decodes.times fun arg member => decodes_readString arg (short arg member)

end

/-! ## The whole request -/

namespace Client

variable {File : Type} (client : Client File)

/-- The descriptor that travels for one stream: none when the stream is a TTY
or nothing is open under its number when it is sent. -/
def passed (fd : Nat) : Option File :=
  (client.streamFd fd).bind client.sending.file

def request : Request File where
  pid := client.pid
  ptsSlave := client.sentPtsSlave
  daemonFromPid := client.ppid
  mountStorage := if client.mountStorage then 1 else 0
  infd := client.passed 0
  outfd := client.passed 1
  errfd := client.passed 2
  argv := client.sentArgs

/-- The limits `daemon_accept` and `read_string` enforce. -/
structure WithinLimits : Prop where
  argCount : client.sentArgs.length ≤ maxArgs
  ptsSlave : client.sentPtsSlave.length ≤ pathMax
  argLength : ∀ arg, arg ∈ client.sentArgs → arg.length ≤ pathMax

/-- The daemon reads back the request as it was made and nothing is left on
the stream. -/
def RoundTrips : Prop :=
  daemonAccept (Socket.whole (connectDaemon client)) =
    .ok (client.request, Socket.whole [])

def preamble : List (WireByte File) :=
  writeInt client.pid ++ (writeString client.sentPtsSlave ++
    (writeInt client.ppid ++ (writeInt (if client.mountStorage then 1 else 0) ++
    (sendFd client.sending (client.streamFd 0) ++
    (sendFd client.sending (client.streamFd 1) ++
    sendFd client.sending (client.streamFd 2))))))

theorem connectDaemon_eq_preamble :
    connectDaemon client =
      client.preamble ++ (writeInt client.announcedArgc ++
        client.sentArgs.flatMap writeString) := by
  simp only [connectDaemon, preamble, writeArgs_eq_sentArgs, List.append_assoc]

theorem daemonAccept_preamble (short : client.sentPtsSlave.length ≤ pathMax)
    (items : List (WireByte File)) :
    daemonAccept (Socket.whole (client.preamble ++ items)) =
      (readArgs (Socket.whole items)).map fun read =>
        ({ client.request with argv := read.1 }, read.2) := by
  simp only [preamble, List.append_assoc]
  rw [daemonAccept, (decodes_readInt _).run_bind,
    (decodes_readString _ short).run_bind, (decodes_readInt _).run_bind,
    (decodes_readInt _).run_bind, (decodes_recvFd _ _).run_bind, (decodes_recvFd _ _).run_bind,
    (decodes_recvFd _ _).run_bind]
  change (readArgs (Socket.whole items)).bind _ = _
  cases readArgs (Socket.whole items) with
  | error failure => rfl
  | ok read => rfl

theorem receives_daemonAccept (limits : client.WithinLimits)
    {items : List (WireByte File)} {args : List CString}
    (argSection : Receives File readArgs items args) :
    Receives File daemonAccept (client.preamble ++ items)
      { client.request with argv := args } := by
  intro rest
  rw [List.append_assoc, client.daemonAccept_preamble limits.ptsSlave, argSection rest]
  rfl

theorem roundTrips_of_count (limits : client.WithinLimits)
    (count : client.announcedArgc = BitVec.ofNat 32 client.sentArgs.length) :
    client.RoundTrips := by
  have argSection : Receives File readArgs _ client.sentArgs :=
    decodes_readArgs client.sentArgs limits.argCount limits.argLength
  have whole := (client.receives_daemonAccept limits argSection).exhausts
  rw [RoundTrips, connectDaemon_eq_preamble, count]
  exact whole

theorem announcedArgc_eq_length_sentArgs (given : client.argv ≠ [])
    (flagWord : ¬(client.mountStorage = true ∧ client.argc = 1)) :
    client.announcedArgc = BitVec.ofNat 32 client.sentArgs.length := by
  unfold announcedArgc sentArgs
  cases mount : client.mountStorage with
  | false => rfl
  | true =>
      have several : 1 < client.argv.length := by
        have positive : 0 < client.argv.length := List.length_pos_iff.mpr given
        have notOne : client.argv.length ≠ 1 := fun single => flagWord ⟨mount, single⟩
        omega
      have less : BitVec.ofNat 32 client.argc - 1#32 =
          BitVec.ofNat 32 (client.argc - 1) := by
        rw [BitVec.ofNat_sub_ofNat_of_le _ _ (by decide) (by unfold argc; omega)]
      simp only [if_true, List.length_eraseIdx_of_lt several]
      exact less

/-- With the mount flag set and no word after the program name, zero arguments
are announced and one is sent. -/
theorem not_roundTrips_of_missing_flag (limits : client.WithinLimits)
    (mount : client.mountStorage = true) (single : client.argc = 1) :
    ¬client.RoundTrips := by
  rcases List.length_eq_one_iff.mp single with ⟨program, onlyProgram⟩
  have noArgs : Receives File readArgs (writeInt 0#32) [] := by
    simpa using decodes_readArgs [] (by simp) (by simp)
  have sent : client.sentArgs = [program] := by
    simp [sentArgs, mount, onlyProgram]
  have leftOver := client.receives_daemonAccept limits noArgs (writeString program)
  intro roundTrips
  have announced : client.announcedArgc = 0#32 := by
    simp [announcedArgc, mount, single]
  rw [RoundTrips, connectDaemon_eq_preamble, announced, sent] at roundTrips
  simp only [List.flatMap_cons, List.flatMap_nil, List.append_nil] at roundTrips
  rw [← List.append_assoc] at roundTrips
  rw [leftOver] at roundTrips
  have noArgv := congrArg Request.argv (Prod.mk.inj (Except.ok.inj roundTrips)).1
  simp [request, sent] at noArgv

/-- The request protocol round-trips exactly when the argument the mount flag
drops is there to be dropped. -/
theorem roundTrips_iff_flag_word_present (given : client.argv ≠ [])
    (limits : client.WithinLimits) :
    client.RoundTrips ↔ ¬(client.mountStorage = true ∧ client.argc = 1) := by
  constructor
  · intro roundTrips missing
    exact client.not_roundTrips_of_missing_flag limits missing.1 missing.2 roundTrips
  · intro flagWord
    exact client.roundTrips_of_count limits
      (client.announcedArgc_eq_length_sentArgs given flagWord)

def detached (mountEmulatedStorage : Option CString) (argv : List CString) :
    Client Nat where
  pid := 100
  ppid := 99
  argv := argv
  mountEmulatedStorage := mountEmulatedStorage
  descriptors := [some 0, some 1, some 2]
  isTty := fun _ => false
  socketFile := 3
  ptmxFile := 4
  ptsSlave := []

theorem detached_command_round_trips :
    (detached none [ascii "su", ascii "-c", ascii "id"]).RoundTrips := by
  refine (roundTrips_iff_flag_word_present _ (by decide) ⟨?_, ?_, ?_⟩).mpr ?_
  all_goals decide

/-- `su` alone, with `MOUNT_EMULATED_STORAGE` set: the announced count is zero
and the program name stays behind on the stream. -/
theorem detached_mount_flag_alone_fails :
    (detached (some []) [ascii "su"]).argv ≠ [] ∧
      (detached (some []) [ascii "su"]).WithinLimits ∧
      ¬(detached (some []) [ascii "su"]).RoundTrips := by
  have limits : (detached (some []) [ascii "su"]).WithinLimits :=
    ⟨by decide, by decide, by decide⟩
  exact ⟨by decide, limits,
    not_roundTrips_of_missing_flag _ limits (by decide) (by decide)⟩

end Client

end SuBinary.Su
