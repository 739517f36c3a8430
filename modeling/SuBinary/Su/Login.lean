import SuBinary.Foundation.Numeral
import SuBinary.Su.CommandLine

/-! # The user that is switched to

The word after the options names a user or is a number, which `strtoul` reads more
generously than it is meant. The number ends up in calls for which `(uid_t) -1` stands
for no change.
-/

namespace SuBinary.Su

open SuBinary Getopt

/-! ## Identifiers -/

structure Ids where
  real : Nat
  effective : Nat
  saved : Nat
deriving DecidableEq

structure Identity where
  user : Ids
  group : Ids
deriving DecidableEq

/-- `(uid_t) -1`. -/
def noChange : Nat := 2 ^ 32 - 1

/-- `setresuid` and `setresgid` with three times the same argument. -/
def Ids.setAll (ids : Ids) (id : Nat) : Ids :=
  if id = noChange then ids else { real := id, effective := id, saved := id }

structure IdentityCalls where
  seteuid : Bool
  setresgid : Bool
  setresuid : Bool

/-- `set_identity` with its `unsigned int`; `none` is a call of `exit`. -/
def setIdentity (calls : IdentityCalls) (uid : Nat) (identity : Identity) : Option Identity :=
  let uid := uid % 2 ^ 32
  if !calls.seteuid then none
  else
    let user := { identity.user with effective := 0 }
    if !calls.setresgid then none
    else
      let group := identity.group.setAll uid
      if !calls.setresuid then none
      else some { user := user.setAll uid, group }

/-- The process runs as this user and in the group of the same number. -/
def Identity.of (id : Nat) : Identity where
  user := { real := id, effective := id, saved := id }
  group := { real := id, effective := id, saved := id }

/-- Whoever the process was, it becomes this user, if it goes on. -/
def Becomes (uid : Nat) : Prop :=
  ∀ calls identity next, setIdentity calls uid identity = some next → next = Identity.of uid

theorem becomes_iff (uid : Nat) : Becomes uid ↔ uid < noChange := by
  constructor
  · intro becomes
    -- a process of the superuser for which all calls succeed
    have result := becomes { seteuid := true, setresgid := true, setresuid := true }
      (Identity.of 0) _ rfl
    have group : (Identity.of 0).group.setAll (uid % 2 ^ 32) = (Identity.of uid).group :=
      congrArg Identity.group result
    by_cases isNone : uid % 2 ^ 32 = noChange
    · rw [Ids.setAll, if_pos isNone] at group
      have isRoot : 0 = uid := congrArg Ids.real group
      rw [← isRoot] at isNone
      exact absurd isNone (by decide)
    · rw [Ids.setAll, if_neg isNone] at group
      have isNumber : uid % 2 ^ 32 = uid := congrArg Ids.real group
      simp only [noChange] at isNone ⊢
      omega
  · intro small calls identity next result
    have isNumber : uid % 2 ^ 32 = uid := by
      simp only [noChange] at small
      omega
    have changes : ∀ ids : Ids, ids.setAll uid = { real := uid, effective := uid, saved := uid } :=
      fun ids => if_neg small.ne
    rw [setIdentity] at result
    rw [isNumber] at result
    split at result
    · cases result
    · split at result
      · cases result
      · split at result
        · cases result
        · cases result
          rw [changes, changes]
          rfl

/-! ## Names and numbers -/

def loginUid (env : SuEnvironment) (word : CString) : Option Nat :=
  match env.getpwnam word with
  | none =>
      let conversion := strtoul env.ulongMax word
      if conversion.erange || conversion.endptr ≠ [] then none else some (conversion.value % 2 ^ 32)
  | some pw =>
      if pw.pwName.any fun name => nameSize ≤ name.length then none else some pw.pwUid

theorem setUser_uid {env : SuEnvironment} {word : CString} {request next : SuRequest}
    (found : setUser env word request = .ok next) : loginUid env word = some next.uid := by
  rw [setUser] at found
  rw [loginUid]
  cases isEntry : env.getpwnam word with
  | none =>
      simp only [isEntry] at found ⊢
      split at found
      · cases found
      · rename_i accepted
        cases found
        rw [if_neg (by simpa using accepted)]
  | some pw =>
      simp only [isEntry] at found ⊢
      cases isName : pw.pwName with
      | none =>
          simp only [isName] at found
          cases found
          rfl
      | some name =>
          simp only [isName] at found
          split at found
          · cases found
          · rename_i short
            cases found
            rw [if_neg (by simpa using short)]

theorem setUser_refused {env : SuEnvironment} {word : CString} {request : SuRequest}
    {ending : Ending} (refused : setUser env word request = .error ending) :
    loginUid env word = none := by
  rw [setUser] at refused
  rw [loginUid]
  cases isEntry : env.getpwnam word with
  | none =>
      simp only [isEntry] at refused ⊢
      split at refused
      · rename_i rejected
        rw [if_pos (by simpa using rejected)]
      · cases refused
  | some pw =>
      simp only [isEntry] at refused ⊢
      cases isName : pw.pwName with
      | none =>
          simp only [isName] at refused
          cases refused
      | some name =>
          simp only [isName] at refused
          split at refused
          · rename_i long
            rw [if_pos (by simpa using long)]
          · cases refused

def IsNamed (env : SuEnvironment) (word : CString) (uid : Nat) : Prop :=
  match env.getpwnam word with
  | some pw => uid = pw.pwUid
  | none =>
      word ≠ [] ∧ (∀ byte, byte ∈ word → isDigit byte = true) ∧
        decimalValue word ≤ 2 ^ 32 - 2 ∧ uid = decimalValue word

/-- The word is refused, or read as it is meant: an entry is not that of `(uid_t) -1`
unless its name is too long, and without an entry the word is not empty, and the
numerals that fit into an `unsigned long` have neither white space nor a sign, and are
less than `(uid_t) -1`. -/
def ReadsAsMeant (env : SuEnvironment) (word : CString) : Prop :=
  match env.getpwnam word with
  | some pw =>
      pw.pwUid < noChange ∨ ∃ name, pw.pwName = some name ∧ nameSize ≤ name.length
  | none =>
      word ≠ [] ∧ ∀ spaces sign digits, IsNumeral spaces sign digits →
        word = spaces ++ (sign ++ digits) → decimalValue digits ≤ env.ulongMax →
          spaces = [] ∧ sign = [] ∧ decimalValue digits < noChange

theorem loginUid_numeral {env : SuEnvironment} {word : CString}
    (noEntry : env.getpwnam word = none) {spaces sign digits : CString}
    (numeral : IsNumeral spaces sign digits) (isWord : word = spaces ++ (sign ++ digits)) :
    loginUid env word =
      if env.ulongMax < decimalValue digits then none
      else if sign = [45] then
        some ((env.ulongMax + 1 - decimalValue digits) % (env.ulongMax + 1) % 2 ^ 32)
      else some (decimalValue digits % 2 ^ 32) := by
  rw [isWord] at noEntry ⊢
  simp only [loginUid, noEntry, numeral.strtoul_eq]
  split
  · rfl
  · split
    · rfl
    · rfl

theorem plain_of_digits {spaces sign digits : CString} (numeral : IsNumeral spaces sign digits)
    (allDigits : ∀ byte, byte ∈ spaces ++ (sign ++ digits) → isDigit byte = true) :
    spaces = [] ∧ sign = [] := by
  constructor
  · rw [List.eq_nil_iff_forall_not_mem]
    intro byte member
    have isDigit := allDigits byte (List.mem_append_left _ member)
    have notSpace := (isSpace_of_isDigit isDigit).1
    rw [numeral.allSpace byte member] at notSpace
    cases notSpace
  · rcases numeral.isSign with isSign | rfl | rfl
    · exact isSign
    · exact absurd (allDigits 45 (by simp)) (by decide)
    · exact absurd (allDigits 43 (by simp)) (by decide)

theorem readsAsMeant_entry {env : SuEnvironment} {word : CString} {pw : Passwd}
    (isEntry : env.getpwnam word = some pw) :
    ReadsAsMeant env word ↔
      ∀ uid, loginUid env word = some uid → IsNamed env word uid ∧ uid < noChange := by
  have isLong : (pw.pwName.any fun name => nameSize ≤ name.length) = true ↔
      ∃ name, pw.pwName = some name ∧ nameSize ≤ name.length := by
    simp [Option.any_eq_true]
  simp only [ReadsAsMeant, IsNamed, isEntry, loginUid, isLong]
  constructor
  · rintro reads uid found
    split at found
    · cases found
    · rename_i short
      cases found
      exact ⟨rfl, reads.resolve_right short⟩
  · intro named
    by_cases long : ∃ name, pw.pwName = some name ∧ nameSize ≤ name.length
    · exact Or.inr long
    · exact Or.inl (named pw.pwUid (if_neg long)).2

theorem readsAsMeant_number {env : SuEnvironment} {word : CString}
    (noEntry : env.getpwnam word = none) :
    ReadsAsMeant env word ↔
      ∀ uid, loginUid env word = some uid → IsNamed env word uid ∧ uid < noChange := by
  simp only [ReadsAsMeant, IsNamed, noEntry]
  constructor
  · rintro ⟨notEmpty, numerals⟩ uid found
    have ends : (strtoul env.ulongMax word).endptr = [] := by
      by_contra more
      simp [loginUid, noEntry, more] at found
    rcases (isNumeral_of_strtoul ends).resolve_left notEmpty with
      ⟨spaces, sign, digits, numeral, isWord⟩
    rw [loginUid_numeral noEntry numeral isWord] at found
    split at found
    · cases found
    · rename_i fits
      rcases numerals spaces sign digits numeral isWord (not_lt.mp fits) with ⟨rfl, rfl, small⟩
      rw [List.nil_append, List.nil_append] at isWord
      rw [if_neg (by decide), Option.some.injEq] at found
      simp only [noChange] at small ⊢
      have isNumber : uid = decimalValue word := by
        rw [← found, isWord]
        exact Nat.mod_eq_of_lt (by omega)
      rw [← isWord] at small
      exact ⟨⟨notEmpty, isWord ▸ numeral.allDigits, by omega, isNumber⟩, by omega⟩
  · intro named
    constructor
    · rintro rfl
      have found : loginUid env [] = some 0 := by simp [loginUid, noEntry, strtoul_nil]
      exact (named 0 found).1.1 rfl
    · intro spaces sign digits numeral isWord fits
      have found := loginUid_numeral noEntry numeral isWord
      rw [if_neg (not_lt.mpr fits)] at found
      have accepted : ∃ uid, loginUid env word = some uid := by
        rw [found]
        split
        · exact ⟨_, rfl⟩
        · exact ⟨_, rfl⟩
      rcases accepted with ⟨uid, isUid⟩
      rcases named uid isUid with ⟨⟨-, allDigits, small, -⟩, -⟩
      rcases plain_of_digits numeral (isWord ▸ allDigits) with ⟨rfl, rfl⟩
      rw [List.nil_append, List.nil_append] at isWord
      rw [isWord] at small
      refine ⟨rfl, rfl, ?_⟩
      simp only [noChange]
      omega

/-- A word is read as it is meant when whoever it leads to is named by it, and can be
switched to. -/
theorem readsAsMeant_iff (env : SuEnvironment) (word : CString) :
    ReadsAsMeant env word ↔
      ∀ uid, loginUid env word = some uid → IsNamed env word uid ∧ Becomes uid := by
  simp only [becomes_iff]
  cases isEntry : env.getpwnam word with
  | some pw => exact readsAsMeant_entry isEntry
  | none => exact readsAsMeant_number isEntry

/-! ## Runs -/

section Runs

variable {env : SuEnvironment} {words : List CString} {request : SuRequest} {argv : Argv}
  {result : SuRequest × Argv}

theorem takeUser_login (holds : HoldsWords words argv) (argc : request.argc = words.length)
    (ran : takeUser env request argv = .ok result) {word : CString}
    (isWord : (words.drop request.optind).head? = some word) (isName : word ≠ ascii "--") :
    loginUid env word = some result.1.uid := by
  rcases takeUser_cases ran with ⟨past, rfl⟩ |
    ⟨other, inside, here, ⟨isDashes, rfl⟩ | ⟨-, next, found, rfl⟩⟩
  · rw [List.drop_eq_nil_of_le (argc ▸ past)] at isWord
    cases isWord
  · rw [drop_of_slot holds (argc ▸ inside) here, List.head?_cons, Option.some.injEq] at isWord
    exact absurd (isWord.symm.trans isDashes) isName
  · rw [drop_of_slot holds (argc ▸ inside) here, List.head?_cons, Option.some.injEq] at isWord
    subst isWord
    have isUid := setUser_uid found
    exact isUid

theorem takeDashes_uid (ran : takeDashes request argv = .ok result) :
    result.1.uid = request.uid := by
  rcases takeDashes_cases ran with ⟨-, rfl⟩ | ⟨word, -, -, ⟨-, rfl⟩ | ⟨-, rfl⟩⟩
  · rfl
  · rfl
  · rfl

theorem Reached.login {ended : Execution × Argv} (run : Reached env words argv ended)
    (holds : HoldsWords words argv) {word : CString}
    (isWord : (skipDash (words.drop run.parsed.optind)).head? = some word)
    (isName : word ≠ ascii "--") : loginUid env word = some ended.1.request.uid := by
  have argc := (parsed_of_parseOptions run.options).argc
  have first := takeDash_ok run.dash
  have checked := holds.of_slot run.checkedSlots
  have dashed := checked.of_slot first.slots
  rw [← (takeDash_skips checked argc run.dash).1] at isWord
  rcases allow_ok run.allowed with ⟨chosen, allows⟩
  rw [allows.sameRequest, takeDashes_uid run.dashes]
  exact takeUser_login dashed (first.sameArgc.trans argc) run.named isWord isName

theorem isRunDaemon_true {after : Argv} (asked : isRunDaemon argv = .ok (true, after)) :
    ∃ word, argv.slot 1 = some word ∧ word ∈ [ascii "--daemon", ascii "-d", ascii "--start"] := by
  rw [isRunDaemon] at asked
  rcases bind_ok.mp asked with ⟨first, one, readFirst, asked⟩
  rcases readWord_ok.mp readFirst with ⟨isFirst, rfl⟩
  refine ⟨first, isFirst, ?_⟩
  split at asked
  · rename_i isDaemon
    simp [isDaemon]
  · rcases bind_ok.mp asked with ⟨second, two, readSecond, asked⟩
    rcases readWord_ok.mp readSecond with ⟨isSecond, rfl⟩
    obtain rfl : first = second := Option.some.inj (isFirst.symm.trans isSecond)
    split at asked
    · rename_i isShort
      simp [isShort]
    · rcases bind_ok.mp asked with ⟨third, three, readThird, asked⟩
      rcases readWord_ok.mp readThird with ⟨isThird, rfl⟩
      obtain rfl : first = third := Option.some.inj (isFirst.symm.trans isThird)
      split at asked
      · rename_i isStart
        simp [isStart]
      · cases pure_ok.mp asked

/-- What starts the daemon is no option. -/
theorem startDaemon_options (holds : HoldsWords words argv) {ending : Ending}
    (stops : startDaemon env words.length argv = .error ending) :
    parseOptions words = .error (.exits 2) := by
  rw [startDaemon] at stops
  split at stops
  · rename_i two
    rcases List.length_eq_two.mp two with ⟨program, word, rfl⟩
    have here : argv.slot 1 = some word := holds 1 (by simp)
    rcases bind_error stops with failed | ⟨isAsked, middle, asked, later⟩
    · exact absurd failed (isRunDaemon_runs holds (by simp))
    · cases isAsked with
      | false => cases later
      | true =>
          rcases isRunDaemon_true asked with ⟨other, isOther, member⟩
          obtain rfl : word = other := Option.some.inj (here.symm.trans isOther)
          simp only [List.mem_cons, List.not_mem_nil, or_false] at member
          rcases member with rfl | rfl | rfl
          · exact (optionLoop _).run_of_finish rfl
          · exact (optionLoop _).run_of_finish rfl
          · exact (optionLoop _).run_of_finish rfl
  · cases stops

end Runs

/-- A run with this word for the user fails, or becomes the user that the word names. -/
def ResolvesLogin (env : SuEnvironment) (words : List CString) (elsewhere : Int → Option CString)
    (word : CString) : Prop :=
  match suMain env words false (Argv.ofWords words elsewhere) with
  | .error ending => ending = .exits 1 ∨ ending = .denies
  | .ok (execution, _) =>
      IsNamed env word execution.request.uid ∧ Becomes execution.request.uid

/-- The word for the user never widens what it stands for exactly when the caller is not
trusted anyway, or the word is read as it is meant. -/
theorem login_resolved_iff (env : SuEnvironment) {words : List CString}
    (elsewhere : Int → Option CString) {options : SuRequest}
    (parses : parseOptions words = .ok options) {word : CString}
    (isWord : (skipDash (words.drop options.optind)).head? = some word)
    (isName : word ≠ ascii "--") :
    ResolvesLogin env words elsewhere word ↔
      env.fromInit = false ∨ ReadsAsMeant env word := by
  have holds := holdsWords_ofWords words elsewhere
  rw [readsAsMeant_iff, ResolvesLogin]
  cases outcome : suMain env words false (Argv.ofWords words elsewhere) with
  | error ending =>
      dsimp only
      cases stops_of_suMain holds outcome with
      | daemon stops =>
          rw [startDaemon_options holds stops] at parses
          cases parses
      | options stops =>
          rw [parses] at stops
          cases stops
      | user options' parses' request word' isWord' isName' refused =>
          rw [parses] at parses'
          cases parses'
          rw [isWord] at isWord'
          cases isWord'
          have noUser := setUser_refused refused
          refine iff_of_true (Or.inl (setUser_error refused)) (Or.inr ?_)
          intro uid found
          rw [noUser] at found
          cases found
      | denied untrusted isDenial => exact iff_of_true (Or.inr isDenial) (Or.inl untrusted)
  | ok ended =>
      rcases ended with ⟨execution, last⟩
      rcases reached_of_suMain outcome with ⟨run⟩
      have isParsed : run.parsed = options := Except.ok.inj (run.options.symm.trans parses)
      have found := run.login holds (isParsed ▸ isWord) isName
      constructor
      · intro resolved
        refine Or.inr fun uid isUid => ?_
        rw [found, Option.some.injEq] at isUid
        exact isUid ▸ resolved
      · rintro (untrusted | reads)
        · rw [run.trusted] at untrusted
          cases untrusted
        · exact reads _ found

theorem readsAsMeant_shell : ReadsAsMeant rootOnly (ascii "2000") := by
  refine ⟨by decide, fun spaces sign digits numeral isWord fits => ?_⟩
  have allDigits : ∀ byte, byte ∈ ascii "2000" → isDigit byte = true := by
    decide +kernel
  rcases plain_of_digits numeral (isWord ▸ allDigits) with ⟨rfl, rfl⟩
  rw [List.nil_append, List.nil_append] at isWord
  rw [← isWord]
  exact ⟨rfl, rfl, by decide⟩

theorem shell_login_resolved :
    ResolvesLogin rootOnly [ascii "su", ascii "2000"] (fun _ => none) (ascii "2000") :=
  (login_resolved_iff rootOnly (fun _ => none) ((optionLoop _).run_of_finish rfl) rfl
    (by decide)).mpr (Or.inr readsAsMeant_shell)

theorem not_resolves_of_run {env : SuEnvironment} {words : List CString}
    {elsewhere : Int → Option CString} {word : CString} {uid : Nat}
    (ran : (suMain env words false (Argv.ofWords words elsewhere)).toOption.map
      (fun result => result.1.request.uid) = some uid)
    (other : ¬IsNamed env word uid) : ¬ResolvesLogin env words elsewhere word := by
  intro resolved
  rw [ResolvesLogin] at resolved
  cases outcome : suMain env words false (Argv.ofWords words elsewhere) with
  | error ending => simp [outcome, Except.toOption] at ran
  | ok ended =>
      rw [outcome] at ran resolved
      rw [← Option.some.inj ran] at other
      exact other resolved.1

/-- No digits, a space before them, a sign, `(uid_t) -1` and the number after it, all
of which but the second lead to a process of the superuser. -/
theorem login_widened :
    ¬ResolvesLogin rootOnly [ascii "su", ascii ""] (fun _ => none) (ascii "") ∧
    ¬ResolvesLogin rootOnly [ascii "su", ascii " 5"] (fun _ => none) (ascii " 5") ∧
    ¬ResolvesLogin rootOnly [ascii "su", ascii "--", ascii "-1"] (fun _ => none) (ascii "-1") ∧
    ¬ResolvesLogin rootOnly [ascii "su", ascii "4294967295"] (fun _ => none)
      (ascii "4294967295") ∧
    ¬ResolvesLogin rootOnly [ascii "su", ascii "4294967296"] (fun _ => none)
      (ascii "4294967296") := by
  refine ⟨?_, ?_, ?_, ?_, ?_⟩
  · exact not_resolves_of_run (by decide +kernel : _ = some 0) fun named => named.1 rfl
  · exact not_resolves_of_run (by decide +kernel : _ = some 5) fun named =>
      absurd (named.2.1 32 (by decide)) (by decide)
  · exact not_resolves_of_run (by decide +kernel : _ = some noChange) fun named =>
      absurd (named.2.1 45 (by decide)) (by decide)
  · exact not_resolves_of_run (by decide +kernel : _ = some noChange) fun named =>
      absurd named.2.2.1 (by decide +kernel)
  · exact not_resolves_of_run (by decide +kernel : _ = some 0) fun named =>
      absurd named.2.2.1 (by decide +kernel)

end SuBinary.Su
