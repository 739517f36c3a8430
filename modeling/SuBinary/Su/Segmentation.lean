import SuBinary.Su.ExitStatus

/-! # Reads that return less

A stream socket may split what is sent among the reads in any way. `read_int` and
`read_string` read once, and give up when less came than they asked for.
-/

namespace SuBinary.Su

open SuBinary

def NotSplit (counts schedule : List Nat) : Prop :=
  ∀ pair, pair ∈ counts.zip schedule → pair.1 ≤ max 1 pair.2

instance (counts schedule : List Nat) : Decidable (NotSplit counts schedule) :=
  inferInstanceAs (Decidable (∀ pair, pair ∈ counts.zip schedule → pair.1 ≤ max 1 pair.2))

theorem notSplit_cons (count limit : Nat) (counts schedule : List Nat) :
    NotSplit (count :: counts) (limit :: schedule) ↔
      count ≤ max 1 limit ∧ NotSplit counts schedule := by
  simp [NotSplit]

theorem notSplit_append (counts others schedule : List Nat) :
    NotSplit (counts ++ others) schedule ↔
      NotSplit counts schedule ∧ NotSplit others (schedule.drop counts.length) := by
  induction counts generalizing schedule with
  | nil => simp [NotSplit]
  | cons count counts induction =>
      cases schedule with
      | nil => simp [NotSplit]
      | cons limit schedule =>
          rw [List.cons_append, notSplit_cons, notSplit_cons, induction, and_assoc]
          rfl

section

variable {File : Type} {α β : Type}

def DecodesSame (receive : Receive File α) (items : List (WireByte File))
    (schedule : List Nat) : Prop :=
  (receive { incoming := items, schedule }).map Prod.fst =
    (receive (Socket.whole items)).map Prod.fst

/-! ## Decoders that give up on a split read -/

/-- The decoder makes reads of the `counts` on the items. It yields the value if none of
them is split, and gives up otherwise. -/
def ReadsAs (receive : Receive File α) (items : List (WireByte File)) (value : α)
    (counts : List Nat) : Prop :=
  ∀ rest schedule,
    (NotSplit counts schedule →
      receive { incoming := items ++ rest, schedule } =
        .ok (value, { incoming := rest, schedule := schedule.drop counts.length })) ∧
    (¬NotSplit counts schedule →
      ∃ failure, receive { incoming := items ++ rest, schedule } = .error failure)

theorem ReadsAs.pure (value : α) :
    ReadsAs (Pure.pure value : Receive File α) [] value [] := by
  intro rest schedule
  constructor
  · intro _
    rfl
  · intro split
    exact absurd (by simp [NotSplit]) split

theorem ReadsAs.bind {first : Receive File α} {next : α → Receive File β}
    {items others : List (WireByte File)} {value : α} {result : β} {counts more : List Nat}
    (head : ReadsAs first items value counts)
    (tail : ReadsAs (next value) others result more) :
    ReadsAs (first >>= next) (items ++ others) result (counts ++ more) := by
  intro rest schedule
  have run : ∀ socket, (first >>= next) socket =
      (first socket).bind fun pair => next pair.1 pair.2 := fun _ => rfl
  rw [notSplit_append, run, List.append_assoc]
  rcases head (others ++ rest) schedule with ⟨succeeds, fails⟩
  by_cases whole : NotSplit counts schedule
  · rcases tail rest (schedule.drop counts.length) with ⟨tailSucceeds, tailFails⟩
    rw [succeeds whole, List.length_append, ← List.drop_drop]
    exact ⟨fun both => tailSucceeds both.2,
      fun split => tailFails fun later => split ⟨whole, later⟩⟩
  · rcases fails whole with ⟨failure, failed⟩
    rw [failed]
    exact ⟨fun both => absurd both.1 whole, fun _ => ⟨failure, rfl⟩⟩

theorem ReadsAs.map {receive : Receive File α} {items : List (WireByte File)} {value : α}
    {counts : List Nat} (transform : α → β) (reads : ReadsAs receive items value counts) :
    ReadsAs (receive >>= fun result => Pure.pure (transform result)) items (transform value)
      counts := by
  rw [← List.append_nil items, ← List.append_nil counts]
  exact reads.bind (ReadsAs.pure (transform value))

theorem ReadsAs.times {receive : Receive File α} {encode : α → List (WireByte File)}
    {counts : α → List Nat} {values : List α}
    (each : ∀ value, value ∈ values → ReadsAs receive (encode value) value (counts value)) :
    ReadsAs (Decoder.times receive values.length) (values.flatMap encode) values
      (values.flatMap counts) := by
  induction values with
  | nil => exact ReadsAs.pure []
  | cons head tail induction =>
      have first := each head (by simp)
      have later := induction fun value member => each value (by simp [member])
      exact first.bind (later.map (fun values => head :: values))

theorem ReadsAs.decodesSame_iff {receive : Receive File α} {items : List (WireByte File)}
    {value : α} {counts : List Nat} (reads : ReadsAs receive items value counts)
    (rest : List (WireByte File)) (schedule : List Nat) :
    DecodesSame receive (items ++ rest) schedule ↔ NotSplit counts schedule := by
  have full := (reads rest []).1 (by simp [NotSplit])
  rw [DecodesSame, Socket.whole, full]
  constructor
  · intro same
    by_contra split
    rcases (reads rest schedule).2 split with ⟨failure, failed⟩
    rw [failed] at same
    cases same
  · intro whole
    rw [(reads rest schedule).1 whole]
    rfl

/-! ## The pieces -/

theorem read_whole {bytes : List Byte} {schedule : List Nat}
    (whole : NotSplit [bytes.length] schedule) (rest : List (WireByte File)) :
    read bytes.length { incoming := plainBytes bytes ++ rest, schedule } =
      .ok (bytes, { incoming := rest, schedule := schedule.drop 1 }) := by
  have taken : (plainBytes bytes ++ rest).take bytes.length = plainBytes bytes :=
    List.take_left' (by simp)
  have left : (plainBytes bytes ++ rest).drop bytes.length = rest :=
    List.drop_left' (by simp)
  cases schedule with
  | nil => simp [read, taken, left]
  | cons limit schedule =>
      have enough := ((notSplit_cons _ _ _ _).mp whole).1
      simp only [read, Nat.min_eq_left enough, taken, left, map_byte_plainBytes]
      rfl

theorem read_split {bytes : List Byte} {schedule : List Nat}
    (split : ¬NotSplit [bytes.length] schedule) (rest : List (WireByte File)) :
    ∃ part left, part.length ≠ bytes.length ∧
      read bytes.length { incoming := plainBytes bytes ++ rest, schedule } = .ok (part, left) := by
  cases schedule with
  | nil => exact absurd (by simp [NotSplit]) split
  | cons limit schedule =>
      have short : max 1 limit < bytes.length := by
        by_contra enough
        exact split ((notSplit_cons _ _ _ _).mpr ⟨by omega, by simp [NotSplit]⟩)
      refine ⟨_, _, ?_, rfl⟩
      simp only [List.length_map, List.length_take, List.length_append, length_plainBytes]
      omega

theorem readsAs_checked (bytes : List Byte) (failure : List Byte → Failure)
    (result : List Byte → α) :
    ReadsAs (do
        let val ← read bytes.length
        if val.length ≠ bytes.length then
          throw (failure val)
        return result val : Receive File α)
      (plainBytes bytes) (result bytes) [bytes.length] := by
  let checked : List Byte → Receive File α := fun val => do
    if val.length ≠ bytes.length then
      throw (failure val)
    return result val
  intro rest schedule
  have run : ∀ socket, (read bytes.length >>= checked) socket =
      (read bytes.length socket).bind fun pair => checked pair.1 pair.2 := fun _ => rfl
  constructor
  · intro whole
    rw [run, read_whole whole]
    simp only [Except.bind, checked, ne_eq, not_true_eq_false, if_false]
    rfl
  · intro split
    rcases read_split split rest with ⟨part, left, short, isRead⟩
    refine ⟨failure part, ?_⟩
    rw [run, isRead]
    simp only [Except.bind, checked, ne_eq, short, not_false_eq_true, if_true]
    rfl

theorem readsAs_readInt (value : BitVec 32) :
    ReadsAs (readInt : Receive File (BitVec 32)) (writeInt value) value [4] := by
  have checked : ReadsAs (readInt : Receive File (BitVec 32)) (writeInt value)
      (intOfBytes (intBytes value)) [4] :=
    readsAs_checked (intBytes value) (fun val => .readInt val.length) intOfBytes
  rw [intOfBytes_intBytes] at checked
  exact checked

theorem readsAs_readString (val : CString) (short : val.length ≤ pathMax) :
    ReadsAs (readString : Receive File CString) (writeString val) val [4, val.length] := by
  have bound : val.length < 2 ^ 31 := by
    rw [pathMax] at short
    omega
  rcases small_int bound with ⟨asNat, asInt⟩
  apply (readsAs_readInt _).bind
  simp only [asInt, asNat]
  rw [if_neg (by omega)]
  exact readsAs_checked val (fun _ => .readString) id

theorem readsAs_recvFd (table : DescriptorTable File) (fd : Option Nat) :
    ReadsAs recvFd (sendFd table fd) (fd.bind table.file) [] := by
  intro rest schedule
  constructor
  · intro _
    rfl
  · intro split
    exact absurd (by simp [NotSplit]) split

theorem readsAs_readArgs (args : List CString) (few : args.length ≤ maxArgs)
    (short : ∀ arg, arg ∈ args → arg.length ≤ pathMax) :
    ReadsAs (readArgs : Receive File (List CString))
      (writeInt (BitVec.ofNat 32 args.length) ++ args.flatMap writeString) args
      (4 :: args.flatMap fun arg => [4, arg.length]) := by
  have bound : args.length < 2 ^ 31 := by
    rw [maxArgs] at few
    omega
  rcases small_int bound with ⟨asNat, asInt⟩
  apply (readsAs_readInt _).bind
  simp only [asInt, asNat]
  rw [if_neg (by omega)]
  exact ReadsAs.times fun arg member => readsAs_readString arg (short arg member)

theorem readsAs_receiveExitCode (code : BitVec 32) :
    ReadsAs (receiveExitCode : Receive File (BitVec 32)) (daemonReply code) code [4, 4] :=
  (readsAs_readInt 1).bind (readsAs_readInt code)

end

/-! ## The request -/

namespace Client

variable {File : Type} (client : Client File)

/-- The arguments that the daemon reads, as many as were announced. -/
def readArgv : List CString :=
  client.sentArgs.take client.announcedArgc.toNat

def requestReads : List Nat :=
  [4, 4, client.sentPtsSlave.length, 4, 4, 4] ++
    client.readArgv.flatMap fun arg => [4, arg.length]

theorem readArgv_eq_sentArgs (given : client.argv ≠ []) (limits : client.WithinLimits)
    (flagWord : ¬(client.mountStorage = true ∧ client.argc = 1)) :
    client.readArgv = client.sentArgs := by
  have bound : client.sentArgs.length < 2 ^ 31 := by
    have few := limits.argCount
    rw [maxArgs] at few
    omega
  rw [readArgv, client.announcedArgc_eq_length_sentArgs given flagWord, (small_int bound).1,
    List.take_length]

theorem announcedArgc_eq_length_readArgv (given : client.argv ≠ [])
    (limits : client.WithinLimits) :
    client.announcedArgc = BitVec.ofNat 32 client.readArgv.length := by
  by_cases missing : client.mountStorage = true ∧ client.argc = 1
  · have announced : client.announcedArgc = 0#32 := by
      simp [announcedArgc, missing.1, missing.2]
    simp [readArgv, announced]
  · rw [client.readArgv_eq_sentArgs given limits missing]
    exact client.announcedArgc_eq_length_sentArgs given missing

theorem readsAs_daemonAccept (given : client.argv ≠ []) (limits : client.WithinLimits) :
    ReadsAs daemonAccept
      (client.preamble ++ (writeInt client.announcedArgc ++ client.readArgv.flatMap writeString))
      { client.request with argv := client.readArgv } client.requestReads := by
  have few : client.readArgv.length ≤ maxArgs :=
    (List.length_take_le' _ _).trans limits.argCount
  have short : ∀ arg, arg ∈ client.readArgv → arg.length ≤ pathMax :=
    fun arg member => limits.argLength arg (List.mem_of_mem_take member)
  have args : ReadsAs (readArgs : Receive File (List CString))
      (writeInt client.announcedArgc ++ client.readArgv.flatMap writeString) client.readArgv
      (4 :: client.readArgv.flatMap fun arg => [4, arg.length]) := by
    rw [client.announcedArgc_eq_length_readArgv given limits]
    exact readsAs_readArgs client.readArgv few short
  simp only [preamble, List.append_assoc]
  apply (readsAs_readInt _).bind
  apply (readsAs_readString _ limits.ptsSlave).bind
  apply (readsAs_readInt _).bind
  apply (readsAs_readInt _).bind
  apply (readsAs_recvFd _ _).bind
  apply (readsAs_recvFd _ _).bind
  apply (readsAs_recvFd _ _).bind
  exact args.map _

theorem connectDaemon_eq_read_append :
    connectDaemon client =
      client.preamble ++ (writeInt client.announcedArgc ++ client.readArgv.flatMap writeString) ++
        (client.sentArgs.drop client.announcedArgc.toNat).flatMap writeString := by
  rw [connectDaemon_eq_preamble, readArgv]
  nth_rewrite 1 [← List.take_append_drop client.announcedArgc.toNat client.sentArgs]
  simp only [List.flatMap_append, List.append_assoc]

/-- The request, the acknowledgement and the exit code are the same as with full reads
exactly if none of the reads is split. -/
theorem decodes_same_iff_not_split (given : client.argv ≠ []) (limits : client.WithinLimits)
    (code : BitVec 32) (schedule replySchedule : List Nat) :
    (DecodesSame daemonAccept (connectDaemon client) schedule ∧
      DecodesSame readInt (daemonReply code : List (WireByte File)) replySchedule ∧
      DecodesSame receiveExitCode (daemonReply code : List (WireByte File)) replySchedule) ↔
    (NotSplit client.requestReads schedule ∧ NotSplit [4, 4] replySchedule) := by
  have request := (client.readsAs_daemonAccept given limits).decodesSame_iff
    ((client.sentArgs.drop client.announcedArgc.toNat).flatMap writeString) schedule
  have acknowledgement : DecodesSame readInt (daemonReply code : List (WireByte File))
      replySchedule ↔ NotSplit [4] replySchedule :=
    (readsAs_readInt 1).decodesSame_iff (writeInt code) replySchedule
  have exitCode : DecodesSame receiveExitCode (daemonReply code ++ [] : List (WireByte File))
      replySchedule ↔ NotSplit [4, 4] replySchedule :=
    (readsAs_receiveExitCode code).decodesSame_iff [] replySchedule
  rw [← client.connectDaemon_eq_read_append] at request
  rw [List.append_nil] at exitCode
  rw [request, acknowledgement, exitCode]
  constructor
  · intro same
    exact ⟨same.1, same.2.2⟩
  · intro whole
    have first : NotSplit [4] replySchedule :=
      ((notSplit_append [4] [4] replySchedule).mp whole.2).1
    exact ⟨whole.1, first, whole.2⟩

/-- Limits that no read exceeds. -/
theorem detached_decodes_same :
    DecodesSame daemonAccept (connectDaemon (detached none [ascii "su", ascii "-c", ascii "id"]))
      [4, 9, 1, 4, 4, 4, 4, 2, 100] := by
  have limits : (detached none [ascii "su", ascii "-c", ascii "id"]).WithinLimits :=
    ⟨by decide, by decide, by decide⟩
  exact ((decodes_same_iff_not_split _ (by decide) limits 0 [4, 9, 1, 4, 4, 4, 4, 2, 100] [4]).mpr
    ⟨by decide, by decide⟩).1

/-- The last byte of an argument comes apart from the others: the daemon gives up on a
request that it accepts otherwise. So does the client when its first read of the reply
returns three bytes. -/
theorem detached_split_argument :
    daemonAccept
        { incoming := connectDaemon (detached none [ascii "su", ascii "-c", ascii "id"])
          schedule := [4, 4, 4, 4, 4, 4, 4, 1] } = .error .readString ∧
      (detached none [ascii "su", ascii "-c", ascii "id"]).WithinLimits ∧
      daemonAccept (Socket.whole
        (connectDaemon (detached none [ascii "su", ascii "-c", ascii "id"]))) =
        .ok ((detached none [ascii "su", ascii "-c", ascii "id"]).request, Socket.whole []) ∧
      receiveExitCode { incoming := (daemonReply 0 : List (WireByte Nat)), schedule := [3] } =
        .error (.readInt 3) ∧
      receiveExitCode (Socket.whole (daemonReply 0 : List (WireByte Nat))) =
        .ok (0, Socket.whole []) := by
  refine ⟨by decide +kernel, ⟨by decide, by decide, by decide⟩, by decide +kernel,
    by decide +kernel, by decide +kernel⟩

end Client

end SuBinary.Su
