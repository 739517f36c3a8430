import SuBinary.Foundation.CString
import SuBinary.Foundation.DataModel
import SuBinary.Foundation.Disk
import SuBinary.Foundation.Runs

/-! # The pump

`pump_ex` and `write_blocking` of `pts.c`, one system call a step. How many bytes a
`read` or a `write` moves is up to the event; the input may go on without end.
-/

namespace SuBinary.Su.Pump

open SuBinary

/-! ## The loops -/

def bufferSize : Nat := 4096

/-- Where `pump_ex` stands: at its call of `read`, at the call of `write` in
`write_blocking`, behind `write_blocking`, or at its end. -/
inductive Point
  | read
  | write (bufsz : Nat) (written : Int)
  | returned (bufsz : Nat) (ret : Int)
  | closed

inductive Ending
  | endOfFile
  | readFailed
  | writeFailed

/-- `input` is what has come in so far, of which `taken` bytes have been read. `called`
is how much the output had accepted when `write_blocking` was called last. -/
structure State where
  point : Point
  buf : List Byte
  input : List Byte
  taken : Nat
  hungUp : Bool
  output : List Byte
  called : Nat
  ending : Option Ending

/-- Nothing is known of the buffer before the first `read`. -/
def State.start (buf : Vector Byte bufferSize) : State where
  point := .read
  buf := buf.toList
  input := []
  taken := 0
  hungUp := false
  output := []
  called := 0
  ending := none

inductive Event
  | arrive (bytes : List Byte)
  | hangUp
  | read (count : Nat)
  | readEnd
  | readFails
  | write (count : Nat)
  | writeFails
  | proceed

namespace State

variable (model : DataModel) (s : State)

/-- `read(input, buf, 4096)` -/
def read (count : Nat) : Option State :=
  match s.point with
  | .read =>
      if 1 ≤ count ∧ count ≤ bufferSize ∧ s.taken + count ≤ s.input.length then
        some { s with
          buf := overwrite s.buf ((s.input.drop s.taken).take count)
          taken := s.taken + count
          called := s.output.length
          point := .write count 0 }
      else none
  | _ => none

def readEnd : Option State :=
  match s.point with
  | .read =>
      if s.hungUp ∧ s.taken = s.input.length then
        some { s with point := .closed, ending := some .endOfFile }
      else none
  | _ => none

def readFails : Option State :=
  match s.point with
  | .read => some { s with point := .closed, ending := some .readFailed }
  | _ => none

/-- `write(fd, buf + written, bufsz - written)` and the test of the loop. -/
def write (count : Nat) : Option State :=
  match s.point with
  | .write bufsz written =>
      if 1 ≤ count ∧ count ≤ model.toSize (bufsz - written) then
        some { s with
          output := s.output ++ (s.buf.drop written.toNat).take count
          point :=
            if written + count < bufsz then .write bufsz (written + count)
            else .returned bufsz 0 }
      else none
  | _ => none

def writeFails : Option State :=
  match s.point with
  | .write bufsz _ => some { s with point := .returned bufsz (-1) }
  | _ => none

/-- `if (write_blocking(output, buf, len) == -1) break;` -/
def proceed : Option State :=
  match s.point with
  | .returned _ ret =>
      if ret = -1 then some { s with point := .closed, ending := some .writeFailed }
      else some { s with point := .read }
  | _ => none

end State

def step (model : DataModel) : Event → State → Option State
  | .arrive bytes, s => if s.hungUp then none else some { s with input := s.input ++ bytes }
  | .hangUp, s => some { s with hungUp := true }
  | .read count, s => s.read count
  | .readEnd, s => s.readEnd
  | .readFails, s => s.readFails
  | .write count, s => s.write model count
  | .writeFails, s => s.writeFails
  | .proceed, s => s.proceed

/-! ## The invariant -/

/-- The last `bufsz` bytes that were read stand at the front of the buffer. -/
structure HoldsChunk (buf input : List Byte) (called taken bufsz : Nat) : Prop where
  read : called + bufsz = taken
  fits : bufsz ≤ bufferSize
  bytes : buf.take bufsz = (input.drop called).take bufsz

def Accepted (s : State) : Prop :=
  match s.point with
  | .read => s.output = s.input.take s.taken
  | .write bufsz written =>
      HoldsChunk s.buf s.input s.called s.taken bufsz ∧
        ∃ offset : Nat, written = offset ∧ offset < bufsz ∧
        s.output = s.input.take (s.called + offset)
  | .returned bufsz ret =>
      HoldsChunk s.buf s.input s.called s.taken bufsz ∧ ∃ offset : Nat, offset ≤ bufsz ∧
        s.output = s.input.take (s.called + offset) ∧
        ((ret = 0 ∧ offset = bufsz) ∨ (ret = -1 ∧ offset < bufsz))
  | .closed => ∃ accepted, accepted ≤ s.taken ∧ s.output = s.input.take accepted

structure Inv (s : State) : Prop where
  size : s.buf.length = bufferSize
  bound : s.taken ≤ s.input.length
  accepted : Accepted s
  ended : s.ending = some .endOfFile → s.hungUp = true ∧ s.output = s.input
  running : s.ending.isSome → s.point = .closed

theorem inv_start (buf : Vector Byte bufferSize) : Inv (State.start buf) where
  size := by simp [State.start]
  bound := Nat.zero_le _
  accepted := rfl
  ended := fun ended => by cases ended
  running := fun ended => by cases ended

/-! ## Steps -/

section Steps

variable {model : DataModel} {s next : State}

theorem take_arrive {count : Nat} {input : List Byte} (bound : count ≤ input.length)
    (bytes : List Byte) : (input ++ bytes).take count = input.take count :=
  List.take_append_of_le_length bound

theorem HoldsChunk.arrive {buf input : List Byte} {called taken bufsz : Nat}
    (chunk : HoldsChunk buf input called taken bufsz) (bound : taken ≤ input.length)
    (bytes : List Byte) : HoldsChunk buf (input ++ bytes) called taken bufsz where
  read := chunk.read
  fits := chunk.fits
  bytes := by
    have inside := chunk.read
    rw [chunk.bytes, List.drop_append_of_le_length (by omega),
      List.take_append_of_le_length (by rw [List.length_drop]; omega)]

theorem Inv.arrive (inv : Inv s) (open' : s.hungUp = false) (bytes : List Byte) :
    Inv { s with input := s.input ++ bytes } := by
  have bound := inv.bound
  refine ⟨inv.size, ?_, ?_, fun ended => ?_, inv.running⟩
  · exact le_trans bound (List.length_append ▸ Nat.le_add_right _ _)
  · have accepted := inv.accepted
    rw [Accepted] at accepted ⊢
    cases point : s.point with
    | read =>
        simp only [point] at accepted ⊢
        rw [take_arrive bound]
        exact accepted
    | write bufsz written =>
        simp only [point] at accepted ⊢
        rcases accepted with ⟨chunk, offset, isOffset, inside, output⟩
        have := chunk.read
        refine ⟨chunk.arrive bound bytes, offset, isOffset, inside, ?_⟩
        rw [take_arrive (by omega)]
        exact output
    | returned bufsz ret =>
        simp only [point] at accepted ⊢
        rcases accepted with ⟨chunk, offset, inside, output, isRet⟩
        have := chunk.read
        refine ⟨chunk.arrive bound bytes, offset, inside, ?_, isRet⟩
        rw [take_arrive (by omega)]
        exact output
    | closed =>
        simp only [point] at accepted ⊢
        rcases accepted with ⟨count, early, output⟩
        refine ⟨count, early, ?_⟩
        rw [take_arrive (by omega)]
        exact output
  · rw [(inv.ended ended).1] at open'
    cases open'

theorem Inv.ending_none (inv : Inv s) (notClosed : s.point ≠ .closed) : s.ending = none := by
  cases ending : s.ending with
  | none => rfl
  | some how => exact absurd (inv.running (by rw [ending]; rfl)) notClosed

theorem Inv.read (inv : Inv s) {count : Nat} (stepped : s.read count = some next) : Inv next := by
  rw [State.read] at stepped
  split at stepped
  · rename_i point
    split at stepped
    · rename_i room
      cases stepped
      have noEnding := inv.ending_none (by rw [point]; exact fun same => by cases same)
      have accepted := inv.accepted
      rw [Accepted, point] at accepted
      have isTaken : s.output.length = s.taken := by
        rw [show s.output = s.input.take s.taken from accepted, List.length_take]
        exact Nat.min_eq_left inv.bound
      have length : ((s.input.drop s.taken).take count).length = count := by
        rw [List.length_take, List.length_drop]
        omega
      refine ⟨?_, by simp only; omega, ⟨⟨?_, room.2.1, ?_⟩, 0, rfl, room.1, ?_⟩, ?_, ?_⟩
      · have size := inv.size
        rw [overwrite, List.length_append, List.length_drop, length]
        omega
      · exact congrArg (· + count) isTaken
      · rw [overwrite, isTaken, List.take_append_of_le_length (by omega), List.take_take, min_self]
      · rw [isTaken, Nat.add_zero]
        exact accepted
      · intro ended
        cases noEnding.symm.trans ended
      · intro ended
        rw [show s.ending = none from noEnding] at ended
        cases ended
    · cases stepped
  · cases stepped

theorem Inv.readEnd (inv : Inv s) (stepped : s.readEnd = some next) : Inv next := by
  rw [State.readEnd] at stepped
  split at stepped
  · rename_i point
    split at stepped
    · rename_i atEnd
      cases stepped
      have accepted := inv.accepted
      rw [Accepted, point] at accepted
      have output : s.output = s.input.take s.taken := accepted
      refine ⟨inv.size, inv.bound, ⟨s.taken, Nat.le_refl _, output⟩, fun _ => ⟨atEnd.1, ?_⟩,
        fun _ => rfl⟩
      rw [output, atEnd.2, List.take_length]
    · cases stepped
  · cases stepped

theorem Inv.readFails (inv : Inv s) (stepped : s.readFails = some next) : Inv next := by
  rw [State.readFails] at stepped
  split at stepped
  · rename_i point
    cases stepped
    have accepted := inv.accepted
    rw [Accepted, point] at accepted
    refine ⟨inv.size, inv.bound, ⟨s.taken, Nat.le_refl _, accepted⟩, fun ended => ?_, fun _ => rfl⟩
    cases ended
  · cases stepped

theorem HoldsChunk.output_append {buf input : List Byte} {called taken bufsz : Nat}
    (chunk : HoldsChunk buf input called taken bufsz) {offset count : Nat}
    (inside : offset + count ≤ bufsz) :
    input.take (called + offset) ++ (buf.drop offset).take count =
      input.take (called + (offset + count)) := by
  have fromChunk : (buf.drop offset).take count = ((buf.take bufsz).drop offset).take count := by
    rw [List.drop_take, List.take_take, min_eq_left (by omega)]
  have fromInput : ((input.drop called).take bufsz).drop offset =
      (input.drop (called + offset)).take (bufsz - offset) := by
    rw [List.drop_take, List.drop_drop]
  rw [fromChunk, chunk.bytes, fromInput, List.take_take, min_eq_left (by omega), ← Nat.add_assoc,
    List.take_add (i := called + offset)]

theorem Inv.write (inv : Inv s) {count : Nat} (stepped : s.write model count = some next) :
    Inv next := by
  rw [State.write] at stepped
  split at stepped
  · rename_i bufsz written point
    split at stepped
    · rename_i offered
      cases stepped
      have noEnding := inv.ending_none (by rw [point]; exact fun same => by cases same)
      have accepted := inv.accepted
      rw [Accepted, point] at accepted
      rcases accepted with ⟨chunk, offset, rfl, inside, output⟩
      have left : ((bufsz : Int) - offset) = (bufsz - offset : Nat) := by omega
      have fits := chunk.fits
      rw [left, model.toSize_of_small (by simp only [bufferSize] at fits; omega)] at offered
      have moved : s.output ++ (s.buf.drop (offset : Int).toNat).take count =
          s.input.take (s.called + (offset + count)) := by
        rw [Int.toNat_natCast, show s.output = s.input.take (s.called + offset) from output]
        exact chunk.output_append (by omega)
      refine ⟨inv.size, inv.bound, ?_, fun ended => ?_, fun ended => ?_⟩
      · by_cases more : (offset : Int) + count < bufsz
        · rw [if_pos more]
          exact ⟨chunk, offset + count, (Int.natCast_add _ _).symm, by omega, moved⟩
        · rw [if_neg more]
          exact ⟨chunk, offset + count, by omega, moved, Or.inl ⟨rfl, by omega⟩⟩
      · cases noEnding.symm.trans ended
      · rw [show s.ending = none from noEnding] at ended
        cases ended
    · cases stepped
  · cases stepped

theorem Inv.writeFails (inv : Inv s) (stepped : s.writeFails = some next) : Inv next := by
  rw [State.writeFails] at stepped
  split at stepped
  · rename_i bufsz written point
    cases stepped
    have noEnding := inv.ending_none (by rw [point]; exact fun same => by cases same)
    have accepted := inv.accepted
    rw [Accepted, point] at accepted
    rcases accepted with ⟨chunk, offset, -, inside, output⟩
    refine ⟨inv.size, inv.bound, ⟨chunk, offset, inside.le, output, Or.inr ⟨rfl, inside⟩⟩,
      fun ended => ?_, fun ended => ?_⟩
    · cases noEnding.symm.trans ended
    · rw [show s.ending = none from noEnding] at ended
      cases ended
  · cases stepped

theorem Inv.proceed (inv : Inv s) (stepped : s.proceed = some next) : Inv next := by
  rw [State.proceed] at stepped
  split at stepped
  · rename_i bufsz ret point
    have noEnding := inv.ending_none (by rw [point]; exact fun same => by cases same)
    have accepted := inv.accepted
    rw [Accepted, point] at accepted
    rcases accepted with ⟨chunk, offset, inside, output, isRet⟩
    have isTaken := chunk.read
    split at stepped
    · cases stepped
      refine ⟨inv.size, inv.bound, ⟨s.called + offset, by simp only; omega, output⟩,
        fun ended => ?_, fun _ => rfl⟩
      cases ended
    · rename_i succeeded
      cases stepped
      have whole : offset = bufsz := by
        rcases isRet with ⟨-, whole⟩ | ⟨failed, -⟩
        · exact whole
        · exact absurd failed succeeded
      rw [whole, isTaken] at output
      refine ⟨inv.size, inv.bound, output, fun ended => ?_, fun ended => ?_⟩
      · cases noEnding.symm.trans ended
      · rw [show s.ending = none from noEnding] at ended
        cases ended
  · cases stepped

theorem inv_step (inv : Inv s) {event : Event} (stepped : step model event s = some next) :
    Inv next := by
  cases event with
  | arrive bytes =>
      rw [step] at stepped
      split at stepped
      · cases stepped
      · rename_i notHungUp
        cases stepped
        exact inv.arrive (by simpa using notHungUp) bytes
  | hangUp =>
      cases stepped
      exact ⟨inv.size, inv.bound, inv.accepted, fun ended => ⟨rfl, (inv.ended ended).2⟩,
        inv.running⟩
  | read count => exact inv.read stepped
  | readEnd => exact inv.readEnd stepped
  | readFails => exact inv.readFails stepped
  | write count => exact inv.write stepped
  | writeFails => exact inv.writeFails stepped
  | proceed => exact inv.proceed stepped

end Steps

/-! ## Fidelity -/

def State.acceptedNow (s : State) : List Byte := s.output.drop s.called

/-- The output has the input in order; `write_blocking` returns 0 when its whole buffer
was accepted and only then; and at the end of the input nothing is missing. -/
structure Faithful (s : State) : Prop where
  inOrder : s.output <+: s.input
  unfinished : ∀ bufsz written, s.point = .write bufsz written →
    s.acceptedNow <+: s.buf.take bufsz ∧ s.acceptedNow ≠ s.buf.take bufsz
  finished : ∀ bufsz ret, s.point = .returned bufsz ret →
    (ret = 0 ↔ s.acceptedNow = s.buf.take bufsz)
  complete : s.ending = some .endOfFile → s.output = s.input

theorem HoldsChunk.length {buf input : List Byte} {called taken bufsz : Nat}
    (chunk : HoldsChunk buf input called taken bufsz) (bound : taken ≤ input.length) :
    (buf.take bufsz).length = bufsz := by
  have isTaken := chunk.read
  rw [chunk.bytes, List.length_take, List.length_drop]
  omega

theorem HoldsChunk.acceptedNow {buf input : List Byte} {called taken bufsz : Nat}
    (chunk : HoldsChunk buf input called taken bufsz) {offset : Nat} (inside : offset ≤ bufsz) :
    (input.take (called + offset)).drop called = (buf.take bufsz).take offset := by
  rw [chunk.bytes, List.take_take, min_eq_left inside, List.drop_take, Nat.add_sub_cancel_left]

theorem Inv.faithful {s : State} (inv : Inv s) : Faithful s := by
  have bound := inv.bound
  have accepted := inv.accepted
  rw [Accepted] at accepted
  refine ⟨?_, fun bufsz written point => ?_, fun bufsz ret point => ?_,
    fun ended => (inv.ended ended).2⟩
  · cases point : s.point with
    | read =>
        simp only [point] at accepted
        exact accepted ▸ List.take_prefix _ _
    | write bufsz written =>
        simp only [point] at accepted
        rcases accepted with ⟨-, offset, -, -, output⟩
        exact output ▸ List.take_prefix _ _
    | returned bufsz ret =>
        simp only [point] at accepted
        rcases accepted with ⟨-, offset, -, output, -⟩
        exact output ▸ List.take_prefix _ _
    | closed =>
        simp only [point] at accepted
        rcases accepted with ⟨count, -, output⟩
        exact output ▸ List.take_prefix _ _
  · simp only [point] at accepted
    rcases accepted with ⟨chunk, offset, -, inside, output⟩
    have length := chunk.length bound
    rw [State.acceptedNow, output, chunk.acceptedNow inside.le]
    refine ⟨List.take_prefix _ _, fun same => ?_⟩
    have := congrArg List.length same
    rw [List.length_take, length] at this
    omega
  · simp only [point] at accepted
    rcases accepted with ⟨chunk, offset, inside, output, isRet⟩
    have length := chunk.length bound
    rw [State.acceptedNow, output, chunk.acceptedNow inside]
    rcases isRet with ⟨rfl, rfl⟩ | ⟨rfl, less⟩
    · exact iff_of_true rfl (by rw [List.take_take, min_self])
    · refine iff_of_false (by decide) fun same => ?_
      have := congrArg List.length same
      rw [List.length_take, length] at this
      omega

/-- Whatever the input is and however `read` and `write` split it, the pump is faithful
at each of its steps. -/
theorem pumpEx_faithful (model : DataModel) (buf : Vector Byte bufferSize)
    (events : List Event) {s : State}
    (ran : runSteps (step model) events (State.start buf) = some s) : Faithful s := by
  have everyEvent : Along (step model) (fun _ _ => True) events (State.start buf) :=
    along_of_forall (fun _ _ _ => trivial) _
  have inv : Inv s := runSteps_invariant
    (fun event state next inv _ stepped => inv_step inv stepped) events (inv_start buf) everyEvent
    ran
  exact inv.faithful

/-- Three bytes that are written in two parts. -/
theorem abc_pumped : ∃ s, runSteps (step .lp64)
    [.arrive (ascii "abc"), .hangUp, .read 3, .write 2, .write 1, .proceed, .readEnd]
    (State.start (Vector.replicate bufferSize 0)) = some s ∧ s.output = ascii "abc" ∧
      Faithful s := by
  refine ⟨_, rfl, rfl, ?_⟩
  exact pumpEx_faithful .lp64 (Vector.replicate bufferSize 0)
    [.arrive (ascii "abc"), .hangUp, .read 3, .write 2, .write 1, .proceed, .readEnd] rfl

end SuBinary.Su.Pump
