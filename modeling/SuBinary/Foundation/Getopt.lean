import SuBinary.Foundation.CString

/-! # Option scanning

`getopt_long` as its manual describes it, with the leading `+` of the option
string: scanning stops at the first word that is not an option and never
reorders the words.
-/

namespace SuBinary.Getopt

open SuBinary

structure LongOption where
  name : CString
  takesArgument : Bool
  value : Byte

structure Table where
  short : Byte → Option Bool
  long : List LongOption

/-- `place` holds the options that are left of the word at `optind`. -/
structure Scan where
  optind : Nat
  place : CString
deriving DecidableEq

/-- `done` is the return value `-1`, `unknown` the return value `?`. -/
inductive Found
  | done
  | unknown
  | option (value : Byte) (optarg : Option CString)
deriving DecidableEq

def dash : Byte := 45

def equals : Byte := 61

/-- The argument of an option is what is attached to it or else the next
word. -/
def takeArgument (words : List CString) (value : Byte) (next : Nat) :
    Option CString → Found × Scan
  | some attached => (.option value (some attached), ⟨next, []⟩)
  | none =>
      match words[next]? with
      | some word => (.option value (some word), ⟨next + 1, []⟩)
      | none => (.unknown, ⟨next, []⟩)

def stay (optind : Nat) (rest : CString) : Scan :=
  match rest with
  | [] => ⟨optind + 1, []⟩
  | _ :: _ => ⟨optind, rest⟩

def attachedTo (rest : CString) : Option CString :=
  match rest with
  | [] => none
  | _ :: _ => some rest

def shortOption (table : Table) (words : List CString) (optind : Nat) (option : Byte)
    (rest : CString) : Found × Scan :=
  match table.short option with
  | none => (.unknown, stay optind rest)
  | some false => (.option option none, stay optind rest)
  | some true => takeArgument words option (optind + 1) (attachedTo rest)

/-- A long option may be abbreviated as long as the abbreviation is unique. -/
def findLong (table : Table) (name : CString) : Option LongOption :=
  match table.long.find? (fun option => option.name = name) with
  | some option => some option
  | none =>
      match table.long.filter (fun option => name.isPrefixOf option.name) with
      | [option] => some option
      | _ => none

def attachedValue (text : CString) : Option CString :=
  match text.dropWhile (· ≠ equals) with
  | [] => none
  | _mark :: value => some value

def longOption (table : Table) (words : List CString) (optind : Nat) (text : CString) :
    Found × Scan :=
  match findLong table (text.takeWhile (· ≠ equals)) with
  | none => (.unknown, ⟨optind + 1, []⟩)
  | some option =>
      if option.takesArgument then
        takeArgument words option.value (optind + 1) (attachedValue text)
      else
        match attachedValue text with
        | some _ => (.unknown, ⟨optind + 1, []⟩)
        | none => (.option option.value none, ⟨optind + 1, []⟩)

/-- A word that is not in the middle of its short options. -/
def scanWord (table : Table) (words : List CString) (optind : Nat) (word : CString) :
    Found × Scan :=
  match word with
  | first :: second :: rest =>
      if first ≠ dash then (.done, ⟨optind, []⟩)
      else if second ≠ dash then shortOption table words optind second rest
      else
        match rest with
        | [] => (.done, ⟨optind + 1, []⟩)
        | _ :: _ => longOption table words optind rest
  | _ => (.done, ⟨optind, []⟩)

def getoptLong (table : Table) (words : List CString) (scan : Scan) : Found × Scan :=
  match scan.place with
  | option :: rest => shortOption table words scan.optind option rest
  | [] =>
      match words[scan.optind]? with
      | none => (.done, scan)
      | some word => scanWord table words scan.optind word

/-! ## What a call can find -/

inductive NextShort (words : List CString) (scan : Scan) (option : Byte) (rest : CString) : Prop
  | inside (place : scan.place = option :: rest)
  | opens (place : scan.place = []) (word : words[scan.optind]? = some (dash :: option :: rest))
      (short : option ≠ dash)

structure NextLong (words : List CString) (scan : Scan) (text : CString) : Prop where
  place : scan.place = []
  word : words[scan.optind]? = some (dash :: dash :: text)
  someText : text ≠ []

/-- The ways to find an option, and where each leaves the scan. -/
inductive Finds (table : Table) (words : List CString) (scan : Scan) :
    Byte → Option CString → Scan → Prop
  | flag {option rest} (next : NextShort words scan option rest)
      (listed : table.short option = some false) :
      Finds table words scan option none (stay scan.optind rest)
  | attached {option rest} (next : NextShort words scan option rest)
      (listed : table.short option = some true) (someRest : rest ≠ []) :
      Finds table words scan option (some rest) ⟨scan.optind + 1, []⟩
  | separate {option word} (next : NextShort words scan option [])
      (listed : table.short option = some true) (follows : words[scan.optind + 1]? = some word) :
      Finds table words scan option (some word) ⟨scan.optind + 2, []⟩
  | longFlag {text option} (next : NextLong words scan text)
      (listed : findLong table (text.takeWhile (· ≠ equals)) = some option)
      (bare : option.takesArgument = false) :
      Finds table words scan option.value none ⟨scan.optind + 1, []⟩
  | longAttached {text option value} (next : NextLong words scan text)
      (listed : findLong table (text.takeWhile (· ≠ equals)) = some option)
      (takes : option.takesArgument = true) (attached : attachedValue text = some value) :
      Finds table words scan option.value (some value) ⟨scan.optind + 1, []⟩
  | longSeparate {text option word} (next : NextLong words scan text)
      (listed : findLong table (text.takeWhile (· ≠ equals)) = some option)
      (takes : option.takesArgument = true) (follows : words[scan.optind + 1]? = some word) :
      Finds table words scan option.value (some word) ⟨scan.optind + 2, []⟩

section Finds

variable {table : Table} {words : List CString} {scan next : Scan} {value : Byte}
  {optarg : Option CString}

theorem finds_of_shortOption {option : Byte} {rest : CString}
    (nextShort : NextShort words scan option rest)
    (found : shortOption table words scan.optind option rest =
      (.option value optarg, next)) :
    Finds table words scan value optarg next := by
  rw [shortOption] at found
  split at found
  · cases found
  · rename_i listed
    cases found
    exact .flag nextShort listed
  · rename_i listed
    cases rest with
    | nil =>
        simp only [attachedTo, takeArgument] at found
        split at found
        · rename_i follows
          cases found
          exact .separate nextShort listed follows
        · cases found
    | cons byte rest =>
        cases found
        exact .attached nextShort listed (List.cons_ne_nil _ _)

theorem finds_of_longOption {text : CString} (nextLong : NextLong words scan text)
    (found : longOption table words scan.optind text = (.option value optarg, next)) :
    Finds table words scan value optarg next := by
  rw [longOption] at found
  split at found
  · cases found
  · rename_i option listed
    split at found
    · rename_i takes
      cases attached : attachedValue text with
      | none =>
          simp only [attached, takeArgument] at found
          split at found
          · rename_i follows
            cases found
            exact .longSeparate nextLong listed takes follows
          · cases found
      | some attachedText =>
          simp only [attached, takeArgument] at found
          cases found
          exact .longAttached nextLong listed takes attached
    · rename_i bare
      split at found
      · cases found
      · cases found
        exact .longFlag nextLong listed (by simpa using bare)

theorem finds_of_getoptLong
    (found : getoptLong table words scan = (.option value optarg, next)) :
    Finds table words scan value optarg next := by
  unfold getoptLong at found
  split at found
  · rename_i place
    exact finds_of_shortOption (.inside place) found
  · rename_i place
    split at found
    · cases found
    · rename_i word atWord
      unfold scanWord at found
      split at found
      · rename_i first second rest
        split at found
        · cases found
        · rename_i isDash
          rcases not_not.mp isDash with rfl
          split at found
          · rename_i short
            exact finds_of_shortOption (.opens place atWord short) found
          · rename_i isLong
            rcases not_not.mp isLong with rfl
            split at found
            · cases found
            · exact finds_of_longOption ⟨place, atWord, List.cons_ne_nil _ _⟩ found
      · cases found

theorem done_of_getoptLong (found : getoptLong table words scan = (.done, next)) :
    scan.place = [] ∧ (next = scan ∨ (next = ⟨scan.optind + 1, []⟩ ∧
      words[scan.optind]? = some [dash, dash])) := by
  have notShort : ∀ option rest, shortOption table words scan.optind option rest ≠
      (.done, next) := by
    intro option rest found
    unfold shortOption takeArgument at found
    grind
  have notLong : ∀ text, longOption table words scan.optind text ≠ (.done, next) := by
    intro text found
    unfold longOption takeArgument at found
    grind
  rcases scan with ⟨optind, place⟩
  unfold getoptLong at found
  split at found
  · exact absurd found (notShort _ _)
  · rename_i noPlace
    obtain rfl : place = [] := noPlace
    split at found
    · cases found
      exact ⟨rfl, Or.inl rfl⟩
    · rename_i word atWord
      unfold scanWord at found
      grind

end Finds

theorem getoptLong_of_nextShort (table : Table) {words : List CString} {scan : Scan}
    {option : Byte} {rest : CString} (next : NextShort words scan option rest) :
    getoptLong table words scan = shortOption table words scan.optind option rest := by
  cases next with
  | inside place => simp [getoptLong, place]
  | opens place word short => simp [getoptLong, place, word, scanWord, short]

theorem getoptLong_of_nextLong (table : Table) {words : List CString} {scan : Scan}
    {text : CString} (next : NextLong words scan text) :
    getoptLong table words scan = longOption table words scan.optind text := by
  rcases next with ⟨place, word, someText⟩
  cases text with
  | nil => exact absurd rfl someText
  | cons byte text => simp [getoptLong, place, word, scanWord]

/-! ## Progress -/

def weight (words : List CString) (first : Nat) : Nat :=
  ((words.drop first).map fun word => word.length + 1).sum

def remaining (words : List CString) (scan : Scan) : Nat :=
  match scan.place with
  | [] => weight words scan.optind
  | _ :: _ => scan.place.length + weight words (scan.optind + 1)

theorem weight_of_word {words : List CString} {first : Nat} {word : CString}
    (atWord : words[first]? = some word) :
    weight words first = word.length + 1 + weight words (first + 1) := by
  rcases List.getElem?_eq_some_iff.mp atWord with ⟨inside, rfl⟩
  rw [weight, weight, List.drop_eq_getElem_cons inside, List.map_cons, List.sum_cons]

theorem weight_succ_le (words : List CString) (first : Nat) :
    weight words (first + 1) ≤ weight words first := by
  cases atWord : words[first]? with
  | none =>
      have past := List.getElem?_eq_none_iff.mp atWord
      simp [weight, List.drop_eq_nil_of_le (show words.length ≤ first + 1 by omega)]
  | some word =>
      rw [weight_of_word atWord]
      omega

theorem remaining_stay_le (words : List CString) (optind : Nat) (rest : CString) :
    remaining words (stay optind rest) ≤ rest.length + weight words (optind + 1) := by
  cases rest with
  | nil => simp [stay, remaining]
  | cons byte rest => simp [stay, remaining]

theorem NextShort.remaining_gt {words : List CString} {scan : Scan} {option : Byte}
    {rest : CString} (next : NextShort words scan option rest) :
    rest.length + weight words (scan.optind + 1) < remaining words scan := by
  cases next with
  | inside place =>
      simp [remaining, place]
  | opens place word short =>
      simp only [remaining, place, weight_of_word word, List.length_cons]
      omega

theorem NextLong.remaining_gt {words : List CString} {scan : Scan} {text : CString}
    (next : NextLong words scan text) :
    weight words (scan.optind + 1) < remaining words scan := by
  simp only [remaining, next.place, weight_of_word next.word, List.length_cons]
  omega

theorem Finds.remaining_lt {table : Table} {words : List CString} {scan next : Scan}
    {value : Byte} {optarg : Option CString}
    (finds : Finds table words scan value optarg next) :
    remaining words next < remaining words scan := by
  cases finds with
  | flag nextShort =>
      exact Nat.lt_of_le_of_lt (remaining_stay_le words _ _) nextShort.remaining_gt
  | attached nextShort =>
      exact Nat.lt_of_le_of_lt (Nat.le_add_left _ _) nextShort.remaining_gt
  | separate nextShort =>
      exact Nat.lt_of_le_of_lt ((weight_succ_le words (scan.optind + 1)).trans
        (Nat.le_add_left _ _)) nextShort.remaining_gt
  | longFlag nextLong => exact nextLong.remaining_gt
  | longAttached nextLong => exact nextLong.remaining_gt
  | longSeparate nextLong =>
      exact Nat.lt_of_le_of_lt (weight_succ_le words (scan.optind + 1)) nextLong.remaining_gt

/-! ## Whole scans -/

/-- Repeated calls find these options, with their arguments, and then end. -/
inductive Scans (table : Table) (words : List CString) :
    Scan → List (Byte × Option CString) → Scan → Prop
  | done {scan final} (ends : getoptLong table words scan = (.done, final)) :
      Scans table words scan [] final
  | option {scan next final option optarg found}
      (first : getoptLong table words scan = (.option option optarg, next))
      (rest : Scans table words next found final) :
      Scans table words scan ((option, optarg) :: found) final

def spell : Byte × Option CString → List CString
  | (option, none) => [[dash, option]]
  | (option, some optarg) => [[dash, option], optarg]

def Listed (table : Table) (found : Byte × Option CString) : Prop :=
  found.1 ≠ dash ∧ table.short found.1 = some found.2.isSome

theorem getoptLong_spell {table : Table} {found : Byte × Option CString}
    (listed : Listed table found) (before rest : List CString) :
    getoptLong table (before ++ (spell found ++ rest)) ⟨before.length, []⟩ =
      (.option found.1 found.2, ⟨(before ++ spell found).length, []⟩) := by
  rcases found with ⟨option, optarg⟩
  rcases listed with ⟨notDash, isShort⟩
  cases optarg with
  | none =>
      simp only [Option.isSome_none] at isShort
      simp [getoptLong, spell, scanWord, notDash, shortOption, isShort, stay]
  | some optarg =>
      simp only [Option.isSome_some] at isShort
      simp [getoptLong, spell, scanWord, notDash, shortOption, isShort, takeArgument, attachedTo]

theorem scans_spell {table : Table} (found : List (Byte × Option CString))
    (listed : ∀ option, option ∈ found → Listed table option) (before rest : List CString) :
    Scans table (before ++ (found.flatMap spell ++ [dash, dash] :: rest)) ⟨before.length, []⟩ found
      ⟨(before ++ found.flatMap spell).length + 1, []⟩ := by
  induction found generalizing before with
  | nil =>
      apply Scans.done
      simp [getoptLong, scanWord]
  | cons option found induction =>
      have later := induction (fun other member => listed other (List.mem_cons_of_mem _ member))
        (before ++ spell option)
      rw [List.flatMap_cons, List.append_assoc]
      refine .option (getoptLong_spell (listed option (List.mem_cons_self ..)) before _) ?_
      simpa only [List.append_assoc] using later

end SuBinary.Getopt
