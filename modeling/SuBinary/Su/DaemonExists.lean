import SuBinary.Foundation.Lines
import SuBinary.Foundation.Loop
import SuBinary.Foundation.Scanf

/-! # Looking for the daemon

`daemon_exists` of `common.c` on the listing of the sockets. Its `fscanf` takes the newline for
any other white space, so that it does not see where a line ends.
-/

namespace SuBinary.Su.DaemonExists

open SuBinary Scanf

/-! ## The function -/

def daemonSocketName : CString := ascii "me.jpacg.su.daemon.993"

def colon : Byte := 58

/-- `"%x: %x %x %x %x %x %d %s\n"` -/
def format : List Directive :=
  [.number true, .literal colon, .space, .number true, .space, .number true, .space,
    .number true, .space, .number true, .space, .number true, .space, .number false, .space,
    .word, .space]

/-- `strstr(Path, DAEMON_SOCKET_NAME)` -/
def hasName (path : List Byte) : Bool :=
  decide (daemonSocketName <:+: path.takeWhile fun byte => byte ≠ 0)

def tooLong (word : CString) : Bool := decide (pathMax ≤ word.length)

structure Detection where
  content : List Byte
  path : CString

/-- The loop, which has no result where `%s` writes beyond `Path`. -/
def detectLoop : Loop Detection (Option Bool) where
  body := fun state =>
    let scanned := scan format state.content
    if 0 < scanned.returned then
      if scanned.words.any tooLong then .finish none
      else
        let path := scanned.words.getLastD state.path
        if hasName path then .finish (some true)
        else .again { content := scanned.rest, path }
    else .finish (some false)
  rank := fun state => state.content.length
  decreases := by
    intro state next turned
    dsimp only at turned
    split at turned
    · rename_i positive
      split at turned
      · cases turned
      · split at turned
        · cases turned
        · cases turned
          exact scan_shorter ((Scan.returned_pos _).mp positive)
    · cases turned

/-- Nothing stands for a file that cannot be opened. -/
def daemonExists : Option (List Byte) → Option Bool
  | none => some false
  | some content => detectLoop.run { content := (fgets pathMax content).2, path := [] }

/-! ## Reading in pieces -/

structure Pending where
  left : List Directive
  assigned : Nat
deriving DecidableEq

/-- The format without the white space at its end, which the next call skips as well. -/
def record : List Directive := format.dropLast

def start : Pending := { left := record, assigned := 0 }

/-- How the reading of a piece of the listing ends. It is lost where a call assigns nothing. -/
inductive Outcome
  | found
  | overflow
  | lost
  | waiting (pending : Pending)
deriving DecidableEq

def Outcome.answer : Outcome → Option Bool
  | .found => some true
  | .overflow => none
  | .lost => some false
  | .waiting _ => some false

structure Reading where
  pending : Pending
  text : List Byte

def verdict (word : CString) : Option Outcome :=
  if tooLong word then some .overflow else if hasName word then some .found else none

def endCall (before : Nat) (scanned : Scan) : Turn Reading Outcome :=
  match scanned.words.findSome? verdict with
  | some outcome => .finish outcome
  | none =>
      match scanned.ending with
      | .starved left => .finish (.waiting { left, assigned := before + scanned.assigned })
      | _ =>
          if before + scanned.assigned = 0 then .finish .lost
          else .again { pending := start, text := scanned.rest }

section Calls

variable {before : Nat} {scanned : Scan}

theorem endCall_decided {outcome : Outcome}
    (decided : scanned.words.findSome? verdict = some outcome) :
    endCall before scanned = .finish outcome := by
  rw [endCall, decided]

theorem endCall_starved {left : List Directive}
    (undecided : scanned.words.findSome? verdict = none)
    (starved : scanned.ending = .starved left) :
    endCall before scanned =
      .finish (.waiting { left, assigned := before + scanned.assigned }) := by
  rw [endCall, undecided, starved]

theorem endCall_ended (undecided : scanned.words.findSome? verdict = none)
    (ended : ∀ left, scanned.ending ≠ .starved left) :
    endCall before scanned =
      if before + scanned.assigned = 0 then .finish .lost
      else .again { pending := start, text := scanned.rest } := by
  rw [endCall, undecided]
  cases ending : scanned.ending with
  | starved left => exact absurd ending (ended left)
  | complete => rfl
  | mismatch => rfl

theorem endCall_assign : endCall before scanned.assign = endCall (before + 1) scanned := by
  have count : before + (scanned.assigned + 1) = before + 1 + scanned.assigned := by omega
  simp only [endCall, Scan.assign, count]

theorem endCall_again {next : Reading} (turned : endCall before scanned = .again next) :
    next = { pending := start, text := scanned.rest } ∧ 0 < before + scanned.assigned := by
  unfold endCall at turned
  split at turned
  · cases turned
  · split at turned
    · cases turned
    · split at turned
      · cases turned
      · rename_i assigns
        cases turned
        exact ⟨rfl, Nat.pos_of_ne_zero assigns⟩

end Calls

def readLoop : Loop Reading Outcome where
  body := fun reading =>
    endCall reading.pending.assigned (scan reading.pending.left reading.text)
  rank := fun reading => 2 * reading.text.length + min 1 reading.pending.assigned
  decreases := by
    intro reading next turned
    rcases endCall_again turned with ⟨rfl, assigns⟩
    have notLonger := (scan_rest reading.pending.left reading.text).length_le
    have shorter := @scan_shorter reading.pending.left reading.text
    simp only [start, Nat.min_zero]
    omega

def read (pending : Pending) (text : List Byte) : Outcome := readLoop.run { pending, text }

def Outcome.resume (outcome : Outcome) (more : List Byte) : Outcome :=
  match outcome with
  | .waiting pending => read pending more
  | outcome => outcome

section Pieces

variable (more : List Byte)

theorem verdict_ne_waiting {word : CString} {pending : Pending} :
    verdict word ≠ some (.waiting pending) := by
  unfold verdict
  split
  · exact nofun
  · split <;> exact nofun

theorem body_append (reading : Reading) (closed : Closed reading.text) :
    readLoop.body { reading with text := reading.text ++ more } =
      endCall reading.pending.assigned
        ((scan reading.pending.left reading.text).resume more) := by
  rw [← scan_append reading.pending.left closed]
  rfl

theorem run_append_decided {outcome : Outcome} {reading : Reading} (closed : Closed reading.text)
    (decided : (scan reading.pending.left reading.text).words.findSome? verdict = some outcome) :
    readLoop.run { reading with text := reading.text ++ more } =
      (readLoop.run reading).resume more := by
  have resumed : ((scan reading.pending.left reading.text).resume more).words.findSome? verdict =
      some outcome := by
    unfold Scan.resume
    split
    · rw [List.findSome?_append, decided, Option.some_or]
    · exact decided
  rw [readLoop.run_of_finish ((body_append more reading closed).trans (endCall_decided resumed)),
    @Loop.run_of_finish _ _ readLoop reading _ (endCall_decided decided)]
  rcases List.exists_of_findSome?_eq_some decided with ⟨word, -, isVerdict⟩
  cases outcome with
  | waiting pending => exact absurd isVerdict verdict_ne_waiting
  | found => rfl
  | overflow => rfl
  | lost => rfl

theorem run_append_starved {left : List Directive} {reading : Reading}
    (closed : Closed reading.text)
    (undecided : (scan reading.pending.left reading.text).words.findSome? verdict = none)
    (starved : (scan reading.pending.left reading.text).ending = .starved left) :
    readLoop.run { reading with text := reading.text ++ more } =
      (readLoop.run reading).resume more := by
  rw [@Loop.run_of_finish _ _ readLoop reading _ (endCall_starved undecided starved)]
  apply readLoop.run_congr
  rw [body_append more reading closed, Scan.resume, starved]
  simp only [readLoop, endCall, List.findSome?_append, undecided, Option.none_or, Nat.add_assoc]

theorem body_append_ended {reading : Reading} (closed : Closed reading.text)
    (undecided : (scan reading.pending.left reading.text).words.findSome? verdict = none)
    (ended : ∀ left, (scan reading.pending.left reading.text).ending ≠ .starved left) :
    readLoop.body { reading with text := reading.text ++ more } =
      if reading.pending.assigned + (scan reading.pending.left reading.text).assigned = 0 then
        .finish .lost
      else
        .again
          { pending := start
            text := (scan reading.pending.left reading.text).rest ++ more } := by
  rw [body_append more reading closed, resume_ended ended]
  exact endCall_ended undecided ended

theorem run_append (reading : Reading) (closed : Closed reading.text) :
    readLoop.run { reading with text := reading.text ++ more } =
      (readLoop.run reading).resume more := by
  induction isRank : readLoop.rank reading using Nat.strong_induction_on generalizing reading with
  | _ rank induction =>
      subst isRank
      cases decided : (scan reading.pending.left reading.text).words.findSome? verdict with
      | some outcome => exact run_append_decided more closed decided
      | none =>
          by_cases starved : ∃ left, (scan reading.pending.left reading.text).ending = .starved left
          · rcases starved with ⟨left, starved⟩
            exact run_append_starved more closed decided starved
          · rw [not_exists] at starved
            have turned := @endCall_ended reading.pending.assigned _ decided starved
            have turnedToo := body_append_ended more closed decided starved
            split at turned
            · rename_i nothing
              rw [if_pos nothing] at turnedToo
              rw [readLoop.run_of_finish turnedToo,
                @Loop.run_of_finish _ _ readLoop reading _ turned]
              rfl
            · rename_i assigns
              rw [if_neg assigns] at turnedToo
              rw [readLoop.run_of_again turnedToo,
                @Loop.run_of_again _ _ readLoop reading _ turned]
              exact induction _ (readLoop.decreases reading _ turned) _
                (closed.of_suffix (scan_rest _ _)) rfl

theorem read_append (pending : Pending) {text : List Byte} (closed : Closed text)
    (more : List Byte) : read pending (text ++ more) = (read pending text).resume more :=
  run_append more { pending, text } closed

end Pieces

/-! ## The loop as a reading -/

section Whole

variable {content : List Byte} {path : CString}

theorem scan_format (content : List Byte) :
    (scan format content).assigned = (scan record content).assigned ∧
      (scan format content).words = (scan record content).words ∧
      (scan format content).rest.dropWhile isSpace =
        (scan record content).rest.dropWhile isSpace :=
  scan_space_end record content

theorem detect_none (nothing : (scan record content).assigned = 0) :
    detectLoop.run { content, path } = some false := by
  apply detectLoop.run_of_finish
  have notPositive : ¬0 < (scan format content).returned := by
    rw [Scan.returned_pos, (scan_format content).1, nothing]
    exact Nat.lt_irrefl 0
  exact if_neg notPositive

theorem detect_some (assigns : 0 < (scan record content).assigned) :
    detectLoop.body { content, path } =
      if (scan record content).words.any tooLong then .finish none
      else if hasName ((scan record content).words.getLastD path) then .finish (some true)
      else
        .again
          { content := (scan format content).rest
            path := (scan record content).words.getLastD path } := by
  rw [← (scan_format content).2.1]
  rw [← (scan_format content).1] at assigns
  exact if_pos ((Scan.returned_pos _).mpr assigns)

theorem words_cases (content : List Byte) :
    (scan record content).words = [] ∨ ∃ word, (scan record content).words = [word] := by
  have few := scan_words_length record content
  have one : record.count .word = 1 := by decide
  rw [one] at few
  rcases Nat.le_one_iff_eq_zero_or_eq_one.mp few with none | single
  · exact Or.inl (List.length_eq_zero_iff.mp none)
  · exact Or.inr (List.length_eq_one_iff.mp single)

theorem body_start (content : List Byte) :
    readLoop.body { pending := start, text := content } = endCall 0 (scan record content) := rfl

theorem read_start_decided {outcome : Outcome}
    (decided : (scan record content).words.findSome? verdict = some outcome) :
    read start content = outcome :=
  readLoop.run_of_finish ((body_start content).trans (endCall_decided decided))

theorem read_start_none (nothing : (scan record content).assigned = 0) :
    (read start content).answer = some false := by
  have noWords : (scan record content).words = [] := by
    have few := scan_words_assigned record content
    rw [nothing] at few
    exact List.length_eq_zero_iff.mp (Nat.le_zero.mp few)
  have undecided : (scan record content).words.findSome? verdict = none := by
    rw [noWords]
    rfl
  by_cases starved : ∃ left, (scan record content).ending = .starved left
  · rcases starved with ⟨left, starved⟩
    rw [read,
      readLoop.run_of_finish ((body_start content).trans (endCall_starved undecided starved))]
    rfl
  · rw [not_exists] at starved
    have ended := @endCall_ended 0 _ undecided starved
    rw [if_pos (by omega)] at ended
    rw [read, readLoop.run_of_finish ((body_start content).trans ended)]
    rfl

theorem read_start_again (assigns : 0 < (scan record content).assigned)
    (undecided : (scan record content).words.findSome? verdict = none) :
    (read start content).answer = (read start (scan record content).rest).answer := by
  by_cases starved : ∃ left, (scan record content).ending = .starved left
  · rcases starved with ⟨left, starved⟩
    rw [read,
      readLoop.run_of_finish ((body_start content).trans (endCall_starved undecided starved)),
      scan_starved starved]
    rfl
  · rw [not_exists] at starved
    have ended := @endCall_ended 0 _ undecided starved
    rw [if_neg (by omega)] at ended
    rw [read, readLoop.run_of_again ((body_start content).trans ended), ← read]

theorem read_start_dropWhile (text : List Byte) :
    read start (text.dropWhile isSpace) = read start text := by
  apply readLoop.run_congr
  rw [body_start, body_start]
  exact congrArg (endCall 0) (scan_number_dropWhile true record.tail text)

theorem detectLoop_run (content : List Byte) : ∀ path, hasName path = false →
    detectLoop.run { content, path } = (read start content).answer := by
  induction isLength : content.length using Nat.strong_induction_on generalizing content with
  | _ length induction =>
      subst isLength
      intro path noName
      rcases Nat.eq_zero_or_pos (scan record content).assigned with nothing | assigns
      · rw [detect_none nothing, read_start_none nothing]
      · have turned := @detect_some content path assigns
        have again : ∀ path, hasName path = false →
            (scan record content).words.findSome? verdict = none →
            detectLoop.run { content := (scan format content).rest, path } =
              (read start content).answer := by
          intro path noName undecided
          rw [← (scan_format content).1] at assigns
          rw [induction _ (scan_shorter assigns) _ rfl path noName, ← read_start_dropWhile,
            (scan_format content).2.2, read_start_dropWhile]
          exact (read_start_again ((scan_format content).1 ▸ assigns) undecided).symm
        rcases words_cases content with isWords | ⟨word, isWords⟩
        · rw [isWords] at turned
          simp only [List.any_nil, List.getLastD_nil, noName, Bool.false_eq_true,
            if_false] at turned
          rw [detectLoop.run_of_again turned, again path noName (by rw [isWords]; rfl)]
        · rw [isWords] at turned
          simp only [List.any_cons, List.any_nil, Bool.or_false, List.getLastD_cons,
            List.getLastD_nil] at turned
          have isVerdict : (scan record content).words.findSome? verdict = verdict word := by
            rw [isWords, List.findSome?_singleton]
          by_cases long : tooLong word = true
          · rw [if_pos long] at turned
            have decided : verdict word = some .overflow := if_pos long
            rw [detectLoop.run_of_finish turned, read_start_decided (isVerdict.trans decided)]
            rfl
          · rw [if_neg long] at turned
            by_cases named : hasName word = true
            · rw [if_pos named] at turned
              have decided : verdict word = some .found := (if_neg long).trans (if_pos named)
              rw [detectLoop.run_of_finish turned, read_start_decided (isVerdict.trans decided)]
              rfl
            · rw [if_neg named] at turned
              have undecided : verdict word = none := (if_neg long).trans (if_neg named)
              rw [detectLoop.run_of_again turned]
              exact again word (by simpa using named) (isVerdict.trans undecided)

end Whole

end SuBinary.Su.DaemonExists
