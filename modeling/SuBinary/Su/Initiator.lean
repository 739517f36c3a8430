import SuBinary.Foundation.Memory

/-! # Who calls su

`from_init` of `su.c`: the command line and the program of the process that asks for root.
The arrays on its stack have their sizes, and a write behind one of them is a fault.
-/

namespace SuBinary.Su

open SuBinary

/-- The size of `args`, both on the stack and in `struct su_initiator`. -/
def argsSize : Nat := 4096

def initiatorNameSize : Nat := 64

structure SuInitiator where
  pid : Nat
  uid : Nat
  name : CString
  bin : CString
  args : CString
  deriving DecidableEq

inductive InitiatorError
  | commandLine
  | argumentTooLong
  | exePath
  | binaryTooLong
  | nameTooLong
  deriving DecidableEq

/-- What the system answers to `from_init`, and what its arrays hold before. -/
structure InitiatorSystem where
  isDaemon : Bool
  daemonFromUid : Nat
  daemonFromPid : Nat
  uid : Nat
  ppid : Nat
  /-- What `read` gives of `/proc/<pid>/cmdline`. -/
  cmdline : Option (List Byte)
  /-- What `readlink` gives for `/proc/<pid>/exe`. -/
  exe : Option (List Byte)
  /-- `pw_name` of the user, when there is one. -/
  userName : Option CString
  argsArray : List Byte
  exeArray : List Byte
  argsArray_size : argsArray.length = argsSize
  exeArray_size : exeArray.length = pathMax
  cmdline_fits : ∀ bytes, cmdline = some bytes → bytes.length ≤ argsSize
  exe_fits : ∀ link, exe = some link → link.length ≤ pathMax

def setByte (array : List Byte) (index : Nat) (byte : Byte) : Option (List Byte) :=
  if index < array.length then some (array.set index byte) else none

/-- `strlcpy` to an array of this size, with the check of its result. -/
def strlcpy (size : Nat) (src : CString) (error : InitiatorError) :
    Except InitiatorError CString :=
  if size ≤ src.length then .error error else .ok src

/-- The loop over `args`: `argv_rest` points behind the first NUL, the others become blanks. -/
def joinWords : Nat → Nat → List Byte → Option Nat → Option (List Byte × Option Nat)
  | 0, _, args, argvRest => some (args, argvRest)
  | count + 1, i, args, argvRest =>
      match args[i]? with
      | none => none
      | some byte =>
          if byte = 0 then
            match argvRest with
            | none => joinWords count (i + 1) args (some (i + 1))
            | some start => joinWords count (i + 1) (args.set i 32) (some start)
          else
            joinWords count (i + 1) args argvRest

namespace InitiatorSystem

variable (system : InitiatorSystem)

/-- The first part of `from_init`: `argv0` and what it copies to `from->args`. -/
def readCommandLine : Option (Except InitiatorError (CString × CString)) :=
  match system.cmdline with
  | none => some (.error .commandLine)
  | some bytes =>
      if bytes.length = argsSize then
        some (.error .commandLine)
      else
        match joinWords bytes.length 0 (bytes ++ system.argsArray.drop bytes.length) none with
        | none => none
        | some (args, argvRest) =>
            match setByte args bytes.length 0 with
            | none => none
            | some args =>
                match argvRest with
                | none => some (.ok (stringAt args 0, []))
                | some start =>
                    some ((strlcpy argsSize (stringAt args start) .argumentTooLong).map
                      fun rest => (stringAt args 0, rest))

/-- The second part: the path of the program, or `argv0` for `app_process`. -/
def readBinary (argv0 : CString) : Option (Except InitiatorError CString) :=
  match system.exe with
  | none => some (.error .exePath)
  | some link =>
      match setByte (link ++ system.exeArray.drop link.length) link.length 0 with
      | none => none
      | some exe =>
          let argv0 := if stringAt exe 0 = ascii "/system/bin/app_process" then argv0
            else stringAt exe 0
          some (strlcpy pathMax argv0 .binaryTooLong)

/-- `from_init`; `none` is a write behind an array. -/
def fromInit : Option (Except InitiatorError SuInitiator) :=
  let uid := if system.isDaemon then system.daemonFromUid else system.uid
  let pid := if system.isDaemon then system.daemonFromPid else system.ppid
  match system.readCommandLine with
  | none => none
  | some (.error error) => some (.error error)
  | some (.ok (argv0, args)) =>
      match system.readBinary argv0 with
      | none => none
      | some (.error error) => some (.error error)
      | some (.ok bin) =>
          match system.userName with
          | none => some (.ok ⟨pid, uid, [], bin, args⟩)
          | some userName =>
              some ((strlcpy initiatorNameSize userName .nameTooLong).map
                fun name => ⟨pid, uid, name, bin, args⟩)

end InitiatorSystem

/-! ## The words of a command line -/

def firstWord (bytes : List Byte) : CString := bytes.takeWhile (· ≠ 0)

def blankForNul (byte : Byte) : Byte := if byte = 0 then 32 else byte

def otherWords (bytes : List Byte) : CString :=
  (bytes.dropWhile (· ≠ 0)).tail.map blankForNul

example : otherWords (ascii "su" ++ 0 :: ascii "-c" ++ 0 :: ascii "id" ++ [0]) =
    ascii "-c id " := by
  decide

theorem blankForNul_ne (byte : Byte) : blankForNul byte ≠ 0 := by
  rw [blankForNul]
  split
  · decide
  · assumption

theorem nul_not_mem_otherWords (bytes : List Byte) : 0 ∉ otherWords bytes := by
  intro nul
  rcases List.mem_map.mp nul with ⟨byte, -, isNul⟩
  exact blankForNul_ne byte isNul

theorem nul_not_mem_firstWord (bytes : List Byte) : 0 ∉ firstWord bytes := by
  intro nul
  have plain := List.mem_takeWhile_imp nul
  simp at plain

theorem firstWord_of_plain {bytes : List Byte} (plain : 0 ∉ bytes) : firstWord bytes = bytes := by
  apply List.takeWhile_eq_self_iff.mpr
  intro byte member
  exact decide_eq_true fun isNul => plain (isNul ▸ member)

theorem firstWord_cases (bytes : List Byte) :
    (0 ∉ bytes ∧ otherWords bytes = []) ∨
      ∃ more, bytes = firstWord bytes ++ 0 :: more ∧ otherWords bytes = more.map blankForNul := by
  have whole : firstWord bytes ++ bytes.dropWhile (· ≠ 0) = bytes :=
    List.takeWhile_append_dropWhile
  cases behind : bytes.dropWhile (· ≠ 0) with
  | nil =>
      rw [behind, List.append_nil] at whole
      exact Or.inl ⟨whole ▸ nul_not_mem_firstWord bytes, by rw [otherWords, behind]; rfl⟩
  | cons byte more =>
      have isNul : byte = 0 := by
        have stops := List.head?_dropWhile_not (fun byte : Byte => decide (byte ≠ 0)) bytes
        rw [behind] at stops
        simpa using stops
      refine Or.inr ⟨more, ?_, by rw [otherWords, behind]; rfl⟩
      rw [← isNul, ← behind, whole]

theorem stringAt_behind (front rest : List Byte) {text : CString} (clean : 0 ∉ text) :
    stringAt (front ++ (text ++ 0 :: rest)) front.length = text :=
  (HasString.of_drop clean List.drop_left).stringAt_eq

theorem stringAt_terminated (bytes rest : List Byte) :
    stringAt (bytes ++ 0 :: rest) 0 = firstWord bytes := by
  rcases firstWord_cases bytes with ⟨plain, -⟩ | ⟨more, isBytes, -⟩
  · rw [firstWord_of_plain plain]
    exact stringAt_behind [] rest plain
  · have clean := nul_not_mem_firstWord bytes
    have early := stringAt_behind [] (more ++ 0 :: rest) clean
    rw [List.nil_append, ← List.cons_append, ← List.append_assoc, ← isBytes] at early
    exact early

/-! ## The loop -/

theorem getElem?_front {front behind : List Byte} {byte : Byte} :
    (front ++ byte :: behind)[front.length]? = some byte := by
  rw [List.getElem?_append_right (Nat.le_refl _), Nat.sub_self]
  rfl

theorem joinWords_plain {text : CString} (plain : 0 ∉ text) (front behind : List Byte)
    (count : Nat) (argvRest : Option Nat) :
    joinWords (text.length + count) front.length (front ++ (text ++ behind)) argvRest =
      joinWords count (front ++ text).length (front ++ (text ++ behind)) argvRest := by
  induction text generalizing front with
  | nil => rw [List.length_nil, Nat.zero_add, List.append_nil]
  | cons byte text induction =>
      have notNul : byte ≠ 0 := fun isNul => plain (isNul ▸ List.mem_cons_self)
      have later := induction (fun nul => plain (List.mem_cons_of_mem _ nul)) (front ++ [byte])
      rw [List.append_assoc, List.append_assoc, List.singleton_append, List.singleton_append,
        List.length_append, List.length_singleton] at later
      have turn : joinWords (text.length + count + 1) front.length
          (front ++ byte :: (text ++ behind)) argvRest =
          joinWords (text.length + count) (front.length + 1)
            (front ++ byte :: (text ++ behind)) argvRest := by
        cases argvRest
        all_goals rw [joinWords, getElem?_front]
        all_goals exact if_neg notNul
      rw [List.length_cons, Nat.add_right_comm, List.cons_append, turn]
      exact later

theorem joinWords_blanks (text front behind : List Byte) (start : Nat) :
    joinWords text.length front.length (front ++ (text ++ behind)) (some start) =
      some (front ++ (text.map blankForNul ++ behind), some start) := by
  induction text generalizing front with
  | nil => rfl
  | cons byte text induction =>
      have later := induction (front ++ [blankForNul byte])
      rw [List.append_assoc, List.append_assoc, List.singleton_append, List.singleton_append,
        List.length_append, List.length_singleton] at later
      rw [List.length_cons, joinWords, List.cons_append, getElem?_front, List.map_cons,
        List.cons_append, ← later]
      by_cases isNul : byte = 0
      · simp only [isNul, if_true]
        rw [List.set_append_right _ _ (Nat.le_refl _), Nat.sub_self]
        rfl
      · simp only [isNul, if_false, blankForNul]

theorem joinWords_words (word more behind : List Byte) (plain : 0 ∉ word) :
    joinWords (word ++ 0 :: more).length 0 ((word ++ 0 :: more) ++ behind) none =
      some (word ++ 0 :: (more.map blankForNul ++ behind), some (word.length + 1)) := by
  have first := joinWords_plain plain [] (0 :: (more ++ behind)) (more.length + 1) none
  have turn : joinWords (more.length + 1) word.length (word ++ 0 :: (more ++ behind)) none =
      joinWords more.length (word.length + 1) (word ++ 0 :: (more ++ behind))
        (some (word.length + 1)) := by
    rw [joinWords, getElem?_front]
    rfl
  have rest := joinWords_blanks more (word ++ [0]) behind (word.length + 1)
  rw [List.append_assoc, List.append_assoc, List.singleton_append, List.singleton_append,
    List.length_append, List.length_singleton] at rest
  rw [List.nil_append, List.nil_append, turn] at first
  rw [List.append_assoc, List.cons_append, List.length_append, List.length_cons]
  exact first.trans rest

/-! ## The parts of `from_init` -/

theorem setByte_behind (front : List Byte) {behind : List Byte} (longer : 0 < behind.length)
    (byte : Byte) :
    setByte (front ++ behind) front.length byte = some (front ++ byte :: behind.tail) := by
  rw [setByte, if_pos (by rw [List.length_append]; omega)]
  rw [List.set_append_right _ _ (Nat.le_refl _), Nat.sub_self]
  cases behind with
  | nil => exact absurd longer (Nat.lt_irrefl _)
  | cons first rest => rfl

theorem strlcpy_ok {size : Nat} {src : CString} (short : src.length < size)
    (error : InitiatorError) : strlcpy size src error = .ok src :=
  if_neg (Nat.not_le.mpr short)

namespace InitiatorSystem

variable {system : InitiatorSystem}

/-- What was read of the command line leaves room in `args`, and the words behind the first are
never too long. -/
theorem readCommandLine_of_read {bytes : List Byte} (read : system.cmdline = some bytes)
    (short : bytes.length < argsSize) :
    system.readCommandLine = some (.ok (firstWord bytes, otherWords bytes)) := by
  have longer : 0 < (system.argsArray.drop bytes.length).length := by
    rw [List.length_drop, system.argsArray_size]
    omega
  rw [readCommandLine, read]
  simp only [Nat.ne_of_lt short, if_false]
  rcases firstWord_cases bytes with ⟨plain, noMore⟩ | ⟨more, isBytes, isMore⟩
  · have joined := joinWords_plain plain [] (system.argsArray.drop bytes.length) 0 none
    rw [Nat.add_zero, joinWords] at joined
    change joinWords bytes.length 0 (bytes ++ system.argsArray.drop bytes.length) none =
      some (bytes ++ system.argsArray.drop bytes.length, none) at joined
    rw [joined, noMore]
    simp only [setByte_behind bytes longer, stringAt_terminated]
  · have clean := nul_not_mem_firstWord bytes
    generalize firstWord bytes = word at isBytes clean ⊢
    subst isBytes
    have sameLength : (word ++ 0 :: more).length =
        (word ++ 0 :: more.map blankForNul).length := by
      simp
    have joined := joinWords_words word more (system.argsArray.drop (word ++ 0 :: more).length)
      clean
    have ended := setByte_behind (word ++ 0 :: more.map blankForNul) longer 0
    rw [← sameLength, List.append_assoc, List.cons_append] at ended
    have front : stringAt (word ++ 0 :: more.map blankForNul ++
        0 :: (system.argsArray.drop (word ++ 0 :: more).length).tail) 0 = word := by
      rw [List.append_assoc]
      exact stringAt_behind [] _ clean
    have back : stringAt (word ++ 0 :: more.map blankForNul ++
        0 :: (system.argsArray.drop (word ++ 0 :: more).length).tail) (word.length + 1) =
          otherWords (word ++ 0 :: more) := by
      rw [List.append_cons word, List.append_assoc, ← isMore]
      have isLength : (word ++ [0]).length = word.length + 1 := List.length_append
      rw [← isLength]
      exact stringAt_behind _ _ (nul_not_mem_otherWords (word ++ 0 :: more))
    have restShort : (otherWords (word ++ 0 :: more)).length < argsSize := by
      rw [isMore, List.length_map]
      rw [List.length_append, List.length_cons] at short
      omega
    simp only [joined, ended, front, back, strlcpy_ok restShort, Except.map]

/-- A link that fills the array has its NUL written behind it; a shorter one is never too
long. -/
theorem readBinary_of_read {link : List Byte} (read : system.exe = some link)
    {argv0 : CString} (short : argv0.length < pathMax) :
    system.readBinary argv0 =
      if link.length = pathMax then none
      else some (.ok (if firstWord link = ascii "/system/bin/app_process" then argv0
        else firstWord link)) := by
  have fits := system.exe_fits link read
  rw [readBinary, read]
  by_cases full : link.length = pathMax
  · have noRoom : setByte (link ++ system.exeArray.drop link.length) link.length 0 = none := by
      rw [setByte, if_neg]
      rw [List.length_append, List.length_drop, system.exeArray_size]
      omega
    simp only [noRoom, if_pos full]
  · have longer : 0 < (system.exeArray.drop link.length).length := by
      rw [List.length_drop, system.exeArray_size]
      omega
    have linkShort : (firstWord link).length < pathMax := by
      have isPrefix : firstWord link <+: link := List.takeWhile_prefix _
      have := isPrefix.length_le
      omega
    simp only [setByte_behind link longer, stringAt_terminated, if_neg full]
    split
    · rw [strlcpy_ok short]
    · rw [strlcpy_ok linkShort]

def initiator (system : InitiatorSystem) (bytes link : List Byte) : SuInitiator where
  pid := if system.isDaemon then system.daemonFromPid else system.ppid
  uid := if system.isDaemon then system.daemonFromUid else system.uid
  name := system.userName.getD []
  bin := if firstWord link = ascii "/system/bin/app_process" then firstWord bytes
    else firstWord link
  args := otherWords bytes

theorem fromInit_of_read {bytes link : List Byte} (read : system.cmdline = some bytes)
    (short : bytes.length < argsSize) (links : system.exe = some link) :
    system.fromInit =
      if link.length = pathMax then none
      else if (system.userName.getD []).length < initiatorNameSize then
        some (.ok (system.initiator bytes link))
      else some (.error .nameTooLong) := by
  have isPrefix : firstWord bytes <+: bytes := List.takeWhile_prefix _
  have wordShort : (firstWord bytes).length < pathMax :=
    Nat.lt_of_le_of_lt isPrefix.length_le short
  rw [fromInit, readCommandLine_of_read read short]
  simp only [readBinary_of_read links wordShort]
  by_cases full : link.length = pathMax
  · simp only [if_pos full]
  · simp only [if_neg full]
    cases named : system.userName with
    | none =>
        have isShort : ([] : CString).length < initiatorNameSize := by decide
        rw [Option.getD_none, if_pos isShort, initiator, named]
        rfl
    | some userName =>
        rw [Option.getD_some, initiator, named]
        by_cases long : initiatorNameSize ≤ userName.length
        · have cut : strlcpy initiatorNameSize userName .nameTooLong = .error .nameTooLong :=
            if_pos long
          simp only [cut, if_neg (Nat.not_lt.mpr long)]
          rfl
        · have copied := strlcpy_ok (Nat.lt_of_not_le long) .nameTooLong
          simp only [copied, if_pos (Nat.lt_of_not_le long)]
          rfl

theorem fromInit_unread (unread : ∀ bytes, system.cmdline = some bytes → argsSize ≤ bytes.length) :
    system.fromInit = some (.error .commandLine) := by
  have stops : system.readCommandLine = some (.error .commandLine) := by
    rw [readCommandLine]
    cases read : system.cmdline with
    | none => rfl
    | some bytes =>
        have full : bytes.length = argsSize :=
          Nat.le_antisymm (system.cmdline_fits bytes read) (unread bytes read)
        simp only [full, if_true]
  rw [fromInit, stops]

theorem fromInit_unlinked {bytes : List Byte} (read : system.cmdline = some bytes)
    (short : bytes.length < argsSize) (unlinked : system.exe = none) :
    system.fromInit = some (.error .exePath) := by
  rw [fromInit, readCommandLine_of_read read short]
  simp only [readBinary, unlinked]

/-- `from_init` writes behind an array exactly when the path of the program fills `exe`; the
record it makes otherwise, and the only reasons for it to fail. -/
theorem fromInit_names_caller (system : InitiatorSystem) :
    (system.fromInit = none ↔ ∃ bytes link, system.cmdline = some bytes ∧
      bytes.length < argsSize ∧ system.exe = some link ∧ link.length = pathMax) ∧
    (∀ initiator, system.fromInit = some (.ok initiator) ↔ ∃ bytes link,
      system.cmdline = some bytes ∧ bytes.length < argsSize ∧ system.exe = some link ∧
        link.length < pathMax ∧ (system.userName.getD []).length < initiatorNameSize ∧
        initiator = system.initiator bytes link) ∧
    (system.fromInit = some (.error .nameTooLong) ↔ ∃ bytes link,
      system.cmdline = some bytes ∧ bytes.length < argsSize ∧ system.exe = some link ∧
        link.length < pathMax ∧ initiatorNameSize ≤ (system.userName.getD []).length) ∧
    system.fromInit ≠ some (.error .argumentTooLong) ∧
    system.fromInit ≠ some (.error .binaryTooLong) := by
  by_cases readable : ∃ bytes, system.cmdline = some bytes ∧ bytes.length < argsSize
  · rcases readable with ⟨bytes, read, short⟩
    cases links : system.exe with
    | none => simp [fromInit_unlinked read short links]
    | some link =>
        have fits := system.exe_fits link links
        have answer := fromInit_of_read read short links
        by_cases full : link.length = pathMax
        · rw [if_pos full] at answer
          simp [answer, read, short, full]
        · rw [if_neg full] at answer
          have room : link.length < pathMax := Nat.lt_of_le_of_ne fits full
          by_cases named : (system.userName.getD []).length < initiatorNameSize
          · rw [if_pos named] at answer
            simp [answer, read, short, full, room, named, @eq_comm SuInitiator]
          · rw [if_neg named] at answer
            simp [answer, read, short, full, room, named, Nat.le_of_not_lt named]
  · have unread : ∀ bytes, system.cmdline = some bytes → argsSize ≤ bytes.length :=
      fun bytes read => Nat.le_of_not_lt fun short => readable ⟨bytes, read, short⟩
    have none : ∀ bytes, system.cmdline = some bytes → ¬bytes.length < argsSize :=
      fun bytes read => Nat.not_lt.mpr (unread bytes read)
    rw [fromInit_unread unread]
    refine ⟨⟨nofun, ?_⟩, fun initiator => ⟨nofun, ?_⟩, ⟨nofun, ?_⟩, nofun, nofun⟩
    · rintro ⟨bytes, _, read, short, -⟩
      exact absurd short (none bytes read)
    · rintro ⟨bytes, _, read, short, -⟩
      exact absurd short (none bytes read)
    · rintro ⟨bytes, _, read, short, -⟩
      exact absurd short (none bytes read)

end InitiatorSystem

end SuBinary.Su
