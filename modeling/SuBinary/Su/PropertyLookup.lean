import SuBinary.Su.Property

/-! # Which property is found

`get_property` against the lines of the text: it takes the first key that begins with the
one that is searched, and what it copies is what `free` has left of the value.
-/

namespace SuBinary.Su.Property

open SuBinary

/-! ## Entries -/

def trim (text : CString) : CString := (text.dropWhile isSpace).rdropWhile isSpace

/-- The key and the value of a line that has them and is not a comment. -/
def lineEntry (line : CString) : Option (CString × CString) :=
  if equals ∈ line ∧ (line.dropWhile isSpace).head? ≠ some hash then
    some (trim (line.takeWhile (· ≠ equals)), trim (line.dropWhile (· ≠ equals)).tail)
  else none

def entries (data : List Byte) : List (CString × CString) := (lines data).filterMap lineEntry

def copied (text : CString) : Answer := { ret := text.length, found := text ++ [0] }

/-- What is promised: the value of the first entry with the key, if it is short enough, or
the default. -/
def wanted (data : List Byte) (searchkey notFound : CString) : Answer :=
  match (entries data).find? (·.1 = searchkey) with
  | none => copied notFound
  | some entry =>
      if propertyValueMax ≤ entry.2.length then { ret := -1, found := [] } else copied entry.2

/-! ## The loops on the text -/

section Text

variable {front behind : List Byte}

theorem writeByte_text (front text behind : List Byte) (old byte : Byte) :
    writeByte (front.length + text.length) byte (front ++ (text ++ old :: behind)) =
      some ((), front ++ (text ++ byte :: behind)) := by
  simp [writeByte]

theorem readByte_text (front text behind : List Byte) (byte : Byte) :
    readByte (front.length + text.length) (front ++ (text ++ byte :: behind)) =
      some (byte, front ++ (text ++ byte :: behind)) := by
  simp [readByte]

theorem findIdx?_front (check : Byte → Bool) (text : List Byte) (byte : Byte)
    (fails : ∀ other, other ∈ text → check other = false) (passes : check byte = true)
    (behind : List Byte) : (text ++ byte :: behind).findIdx? check = some text.length := by
  induction text with
  | nil => simp [List.findIdx?_cons, passes]
  | cons other text induction =>
      rw [List.cons_append, List.findIdx?_cons, fails other List.mem_cons_self,
        induction fun later member => fails later (List.mem_cons_of_mem _ member)]
      simp

theorem findIdx?_stop {text : List Byte} {byte stop : Byte} (clean : 0 ∉ text)
    (missing : byte ∉ text) (stops : stop = byte ∨ stop = 0) (behind : List Byte) :
    (text ++ stop :: behind).findIdx? (fun other => other = byte || other = 0) =
      some text.length := by
  apply findIdx?_front
  · intro other member
    have notByte : other ≠ byte := fun same => missing (same ▸ member)
    have notNul : other ≠ 0 := fun same => clean (same ▸ member)
    simp [notByte, notNul]
  · simpa using stops

theorem strchr_found {text : List Byte} {byte : Byte} (clean : 0 ∉ text) (first : byte ∉ text)
    (front behind : List Byte) :
    strchr front.length byte (front ++ (text ++ byte :: behind)) =
      some (some (front.length + text.length), front ++ (text ++ byte :: behind)) := by
  have here : (front ++ (text ++ byte :: behind))[front.length + text.length]? = some byte := by
    simp
  rw [strchr, List.drop_left, findIdx?_stop clean first (Or.inl rfl)]
  simp only [here, if_true]

theorem strchr_missing {text : List Byte} {byte : Byte} (clean : 0 ∉ text) (missing : byte ∉ text)
    (someByte : byte ≠ 0) (front behind : List Byte) :
    strchr front.length byte (front ++ (text ++ 0 :: behind)) =
      some (none, front ++ (text ++ 0 :: behind)) := by
  have here : (front ++ (text ++ 0 :: behind))[front.length + text.length]? = some 0 := by simp
  have other : some (0 : Byte) ≠ some byte := by simpa using Ne.symm someByte
  rw [strchr, List.drop_left, findIdx?_stop clean missing (Or.inr rfl)]
  simp only [here, if_neg other]

theorem skipSpacesLoop_text {spaces : List Byte} {byte : Byte}
    (allSpace : ∀ other, other ∈ spaces → isSpace other = true) (stops : isSpace byte = false)
    (behind : List Byte) : ∀ front : List Byte,
      (skipSpacesLoop (front ++ (spaces ++ byte :: behind))).run front.length =
        some (front.length + spaces.length) := by
  induction spaces with
  | nil =>
      intro front
      apply (skipSpacesLoop _).run_of_finish
      simp [skipSpacesLoop, stops]
  | cons space spaces induction =>
      intro front
      have turned : (skipSpacesLoop (front ++ (space :: spaces ++ byte :: behind))).body
          front.length = .again (front.length + 1) := by
        simp [skipSpacesLoop, allSpace space List.mem_cons_self]
      have next := induction (fun other member => allSpace other (List.mem_cons_of_mem _ member))
        (front ++ [space])
      rw [(skipSpacesLoop _).run_of_again turned]
      simpa [Nat.add_assoc, Nat.add_comm 1] using next

theorem skipSpaces_text {spaces : List Byte} {byte : Byte}
    (allSpace : ∀ other, other ∈ spaces → isSpace other = true) (stops : isSpace byte = false)
    (front behind : List Byte) :
    skipSpaces front.length (front ++ (spaces ++ byte :: behind)) =
      some (front.length + spaces.length, front ++ (spaces ++ byte :: behind)) := by
  rw [skipSpaces, skipSpacesLoop_text allSpace stops behind front, Option.map_some]

def padded (text : CString) : List Byte :=
  text.rdropWhile isSpace ++ List.replicate (text.length - (text.rdropWhile isSpace).length) 0

theorem padded_space {text : CString} {byte : Byte} (space : isSpace byte = true) :
    padded (text ++ [byte]) = padded text ++ [0] := by
  have shorter : (text.rdropWhile isSpace).length ≤ text.length :=
    (List.rdropWhile_prefix isSpace text).length_le
  rw [padded, List.rdropWhile_concat_pos _ _ _ space, padded, List.length_append,
    List.length_singleton, Nat.succ_sub shorter, List.replicate_succ', List.append_assoc]

theorem padded_plain {text : CString} {byte : Byte} (plain : isSpace byte = false) :
    padded (text ++ [byte]) = text ++ [byte] := by
  rw [padded, List.rdropWhile_concat_neg _ _ _ (by simp [plain])]
  simp

theorem trimEndLoop_text (front text : List Byte) :
    (∀ byte, text.head? = some byte → isSpace byte = false) → ∀ behind : List Byte,
      (trimEndLoop front.length).run
          { cells := front ++ (text ++ behind), tmp := front.length + text.length - 1 } =
        some (front ++ (padded text ++ behind)) := by
  induction text using List.reverseRecOn with
  | nil =>
      intro _ behind
      apply (trimEndLoop front.length).run_of_finish
      have below : ¬front.length < front.length + ([] : List Byte).length - 1 := by simp
      simp only [trimEndLoop, if_neg below]
      rfl
  | append_singleton text byte induction =>
      intro starts behind
      have here : (front ++ (text ++ [byte] ++ behind))[front.length + text.length]? =
          some byte := by simp
      have tmp : front.length + (text ++ [byte]).length - 1 = front.length + text.length := by simp
      rw [tmp]
      by_cases alone : text = []
      · subst alone
        have plain : isSpace byte = false := starts byte rfl
        have below : ¬front.length < front.length + ([] : List Byte).length := by simp
        rw [padded_plain plain]
        apply (trimEndLoop front.length).run_of_finish
        simp only [trimEndLoop, if_neg below]
      · have above : front.length < front.length + text.length := by
          have := List.length_pos_of_ne_nil alone
          omega
        cases space : isSpace byte with
        | false =>
            rw [padded_plain space]
            apply (trimEndLoop front.length).run_of_finish
            simp [trimEndLoop, above, space]
        | true =>
            have turned : (trimEndLoop front.length).body
                { cells := front ++ (text ++ [byte] ++ behind)
                  tmp := front.length + text.length } =
                .again
                  { cells := front ++ (text ++ 0 :: behind)
                    tmp := front.length + text.length - 1 } := by
              simp [trimEndLoop, above, space]
            have startsText : ∀ first, text.head? = some first → isSpace first = false := by
              intro first isFirst
              apply starts
              rw [List.head?_append_of_ne_nil _ alone, isFirst]
            rw [(trimEndLoop front.length).run_of_again turned, induction startsText (0 :: behind),
              padded_space space]
            simp

theorem trimEnd_text {text : List Byte}
    (starts : ∀ byte, text.head? = some byte → isSpace byte = false)
    (front behind : List Byte) :
    trimEnd front.length (front.length + text.length - 1) (front ++ (text ++ behind)) =
      some ((), front ++ (padded text ++ behind)) := by
  rw [trimEnd, trimEndLoop_text front text starts behind, Option.map_some]

theorem padded_length (text : CString) : (padded text).length = text.length := by
  have shorter : (text.rdropWhile isSpace).length ≤ text.length :=
    (List.rdropWhile_prefix isSpace text).length_le
  rw [padded, List.length_append, List.length_replicate]
  omega

theorem padded_nul (text : CString) (behind : List Byte) :
    ∃ after, padded text ++ 0 :: behind = text.rdropWhile isSpace ++ 0 :: after := by
  rw [padded, List.append_assoc]
  cases text.length - (text.rdropWhile isSpace).length with
  | zero => exact ⟨behind, rfl⟩
  | succ count => exact ⟨List.replicate count 0 ++ 0 :: behind, rfl⟩

theorem nul_not_mem_rdropWhile {text : CString} (clean : 0 ∉ text) :
    0 ∉ text.rdropWhile isSpace :=
  fun nul => clean ((List.rdropWhile_prefix isSpace text).subset nul)

theorem hasString_padded {text : CString} (clean : 0 ∉ text) (front behind : List Byte) :
    HasString (front ++ (padded text ++ 0 :: behind)) front.length (text.rdropWhile isSpace) := by
  rcases padded_nul text behind with ⟨after, isAfter⟩
  have here : (front ++ (padded text ++ 0 :: behind)).drop front.length =
      text.rdropWhile isSpace ++ 0 :: after := by
    rw [List.drop_left, isAfter]
  exact HasString.of_drop (nul_not_mem_rdropWhile clean) here

theorem strncmpEq_of_hasString {cells : List Byte} {key : Nat} {text : CString}
    (present : HasString cells key text) (searchkey : CString) :
    strncmpEq searchkey key cells = some (decide (searchkey <+: text), cells) := by
  rw [strncmpEq, present.stringAt_eq]
  exact if_pos present.bound

theorem exists_stop (text : CString) (behind : List Byte) :
    ∃ byte rest, text.dropWhile isSpace ++ 0 :: behind = byte :: rest ∧ isSpace byte = false ∧
      (byte = 0 ∧ text.dropWhile isSpace = [] ∨ (text.dropWhile isSpace).head? = some byte) := by
  cases dropped : text.dropWhile isSpace with
  | nil => exact ⟨0, behind, rfl, by decide, Or.inl ⟨rfl, rfl⟩⟩
  | cons byte rest =>
      have plain : isSpace byte = false := by
        have := List.head?_dropWhile_not isSpace text
        simpa [dropped] using this
      exact ⟨byte, rest ++ 0 :: behind, rfl, plain, Or.inr rfl⟩

theorem dropWhile_starts (text : CString) :
    ∀ byte, (text.dropWhile isSpace).head? = some byte → isSpace byte = false := by
  intro byte isHead
  have := List.head?_dropWhile_not isSpace text
  rw [isHead] at this
  simpa using this

end Text

/-! ## One line -/

section Line

variable {line key value searchkey front behind : List Byte}

theorem visitLine_done (searchkey front : List Byte) :
    visitLine searchkey front.length (front ++ [0]) = some (.done, front ++ [0]) := by
  have missing : strchr front.length newline (front ++ [0]) = some (none, front ++ [0]) :=
    strchr_missing List.not_mem_nil List.not_mem_nil (by decide) front []
  rw [visitLine, FaultM.run_bind missing]
  rfl

theorem visitLine_keyless (clean : 0 ∉ line) (noEnd : newline ∉ line) (noKey : equals ∉ line) :
    visitLine searchkey front.length (front ++ (line ++ newline :: behind)) =
      some (.next (front.length + line.length + 1), front ++ (line ++ 0 :: behind)) := by
  rw [visitLine, FaultM.run_bind (strchr_found clean noEnd front behind)]
  dsimp only
  rw [FaultM.run_bind (writeByte_text front line behind newline 0),
    FaultM.run_bind (strchr_missing clean noKey (by decide) front behind)]
  rfl

theorem visitLine_split (clean : 0 ∉ key ++ equals :: value)
    (noEnd : newline ∉ key ++ equals :: value) (noKey : equals ∉ key) :
    visitLine searchkey front.length (front ++ ((key ++ equals :: value) ++ newline :: behind)) =
      (do
        let start ← skipSpaces front.length
        if (← readByte start) = hash then
          return .next (front.length + (key ++ equals :: value).length + 1)
        else
          trimEnd start (front.length + key.length + 1 - 2)
          let found ← skipSpaces (front.length + key.length + 1)
          trimEnd found (front.length + (key ++ equals :: value).length + 1 - 2)
          if ← strncmpEq searchkey start then return .matched found
          else return .next (front.length + (key ++ equals :: value).length + 1) : CellM LineVisit)
        (front ++ (key ++ 0 :: (value ++ 0 :: behind))) := by
  have cleanKey : 0 ∉ key := fun nul => clean (List.mem_append_left _ nul)
  have regroup : front ++ ((key ++ equals :: value) ++ 0 :: behind) =
      front ++ (key ++ equals :: (value ++ 0 :: behind)) := by simp
  rw [visitLine, FaultM.run_bind (strchr_found clean noEnd front behind)]
  dsimp only
  rw [FaultM.run_bind (writeByte_text front _ behind newline 0), regroup,
    FaultM.run_bind (strchr_found cleanKey noKey front _)]
  dsimp only
  rw [FaultM.run_bind (writeByte_text front key _ equals 0)]

theorem lineEntry_none (noKey : equals ∉ line) : lineEntry line = none :=
  if_neg fun isEntry => noKey isEntry.1

theorem lineEntry_eq (noKey : equals ∉ key) :
    lineEntry (key ++ equals :: value) =
      if ((key ++ equals :: value).dropWhile isSpace).head? = some hash then none
      else some (trim key, trim value) := by
  have other : ∀ byte, byte ∈ key → decide (byte ≠ equals) = true := by
    intro byte member
    have : byte ≠ equals := fun same => noKey (same ▸ member)
    simpa using this
  have isKey : (key ++ equals :: value).takeWhile (· ≠ equals) = key := by
    rw [List.takeWhile_append_of_pos other]
    simp
  have isValue : (key ++ equals :: value).dropWhile (· ≠ equals) = equals :: value := by
    rw [List.dropWhile_append_of_pos other]
    simp
  rw [lineEntry, isKey, isValue, List.tail_cons]
  by_cases comment : ((key ++ equals :: value).dropWhile isSpace).head? = some hash
  · rw [if_neg fun isEntry => isEntry.2 comment, if_pos comment]
  · rw [if_pos ⟨by simp, comment⟩, if_neg comment]

theorem hash_iff (value : List Byte) {byte : Byte}
    (isByte : byte = 0 ∧ key.dropWhile isSpace = [] ∨ (key.dropWhile isSpace).head? = some byte) :
    byte = hash ↔ ((key ++ equals :: value).dropWhile isSpace).head? = some hash := by
  rw [List.dropWhile_append]
  rcases isByte with ⟨rfl, none⟩ | isHead
  · rw [none]
    exact iff_of_false (by decide) (by simp [isSpace, equals, hash])
  · have some : key.dropWhile isSpace ≠ [] := by
      intro none
      rw [none] at isHead
      cases isHead
    rw [if_neg (by simpa using some), List.head?_append_of_ne_nil _ some, isHead,
      Option.some.injEq]

theorem visitLine_trimmed (searchkey front behind : List Byte)
    (clean : 0 ∉ key ++ equals :: value) (noEnd : newline ∉ key ++ equals :: value)
    (noKey : equals ∉ key)
    (noComment : ((key ++ equals :: value).dropWhile isSpace).head? ≠ some hash) :
    ∃ found after, after.length = (key ++ equals :: value).length + 1 ∧
      HasString (front ++ (after ++ behind)) found (trim value) ∧
      visitLine searchkey front.length (front ++ ((key ++ equals :: value) ++ newline :: behind)) =
        some
          (if searchkey <+: trim key then .matched found
            else .next (front.length + (key ++ equals :: value).length + 1),
          front ++ (after ++ behind)) := by
  have cleanKey : 0 ∉ key := fun nul => clean (List.mem_append_left _ nul)
  have cleanValue : 0 ∉ value := fun nul => clean (by simp [nul])
  rcases exists_stop key (value ++ 0 :: behind) with ⟨first, restKey, isFirst, plainFirst, isByte⟩
  rcases exists_stop value behind with ⟨start, restValue, isStart, plainStart, -⟩
  have notHash : first ≠ hash := fun isHash => noComment ((hash_iff value isByte).mp isHash)
  have startsKey := dropWhile_starts key
  have startsValue := dropWhile_starts value
  have spacesKey : ∀ other, other ∈ key.takeWhile isSpace → isSpace other = true :=
    fun other member => List.mem_takeWhile_imp member
  have spacesValue : ∀ other, other ∈ value.takeWhile isSpace → isSpace other = true :=
    fun other member => List.mem_takeWhile_imp member
  have splitKey : key.takeWhile isSpace ++ key.dropWhile isSpace = key :=
    List.takeWhile_append_dropWhile
  have splitValue : value.takeWhile isSpace ++ value.dropWhile isSpace = value :=
    List.takeWhile_append_dropWhile
  have cleanRestKey : 0 ∉ key.dropWhile isSpace :=
    fun nul => cleanKey ((List.dropWhile_sublist _).subset nul)
  have cleanRestValue : 0 ∉ value.dropWhile isSpace :=
    fun nul => cleanValue ((List.dropWhile_sublist _).subset nul)
  have lengthKey := congrArg List.length splitKey
  have lengthValue := congrArg List.length splitValue
  rw [List.length_append] at lengthKey lengthValue
  rw [visitLine_split clean noEnd noKey]
  generalize isTrimmedKey : key.dropWhile isSpace = restOfKey at *
  generalize key.takeWhile isSpace = spaceOfKey at *
  generalize isTrimmedValue : value.dropWhile isSpace = restOfValue at *
  generalize value.takeWhile isSpace = spaceOfValue at *
  -- the pointer to the key
  have cells : front ++ (key ++ 0 :: (value ++ 0 :: behind)) =
      front ++ (spaceOfKey ++ first :: restKey) := by
    rw [← splitKey, List.append_assoc, isFirst]
  rw [cells, FaultM.run_bind (skipSpaces_text spacesKey plainFirst front restKey),
    FaultM.run_bind (readByte_text front spaceOfKey restKey first), if_neg notHash]
  -- the end of the key
  have trimsKey : trimEnd (front.length + spaceOfKey.length) (front.length + key.length + 1 - 2)
      (front ++ (spaceOfKey ++ first :: restKey)) =
      some ((), (front ++ spaceOfKey) ++ (padded restOfKey ++ 0 :: (value ++ 0 :: behind))) := by
    have trims := trimEnd_text startsKey (front ++ spaceOfKey) (0 :: (value ++ 0 :: behind))
    rw [isFirst, List.length_append, List.append_assoc front] at trims
    rw [show front.length + key.length + 1 - 2 =
      front.length + spaceOfKey.length + restOfKey.length - 1 by omega]
    exact trims
  rw [FaultM.run_bind trimsKey]
  -- the pointer to the value
  have lengthPadded := padded_length restOfKey
  have place : ((front ++ spaceOfKey) ++ (padded restOfKey ++ [0])).length =
      front.length + key.length + 1 := by
    simp only [List.length_append, List.length_singleton]
    omega
  have cellsValue : (front ++ spaceOfKey) ++ (padded restOfKey ++ 0 :: (value ++ 0 :: behind)) =
      ((front ++ spaceOfKey) ++ (padded restOfKey ++ [0])) ++
        (spaceOfValue ++ start :: restValue) := by
    rw [← isStart, ← splitValue]
    simp
  rw [cellsValue, ← place, FaultM.run_bind (skipSpaces_text spacesValue plainStart _ restValue)]
  generalize isFront : (front ++ spaceOfKey) ++ (padded restOfKey ++ [0]) = frontValue at *
  -- the end of the value
  have trimsValue : trimEnd (frontValue.length + spaceOfValue.length)
      (front.length + (key ++ equals :: value).length + 1 - 2)
      (frontValue ++ (spaceOfValue ++ start :: restValue)) =
      some ((), (frontValue ++ spaceOfValue) ++ (padded restOfValue ++ 0 :: behind)) := by
    have trims := trimEnd_text startsValue (frontValue ++ spaceOfValue) (0 :: behind)
    rw [isStart, List.length_append, List.append_assoc frontValue] at trims
    rw [show front.length + (key ++ equals :: value).length + 1 - 2 =
      frontValue.length + spaceOfValue.length + restOfValue.length - 1 by simp; omega]
    exact trims
  rw [FaultM.run_bind trimsValue]
  -- the key and the value that are left
  have keyString : HasString ((frontValue ++ spaceOfValue) ++ (padded restOfValue ++ 0 :: behind))
      (front.length + spaceOfKey.length) (trim key) := by
    have present := hasString_padded cleanRestKey (front ++ spaceOfKey)
      (spaceOfValue ++ (padded restOfValue ++ 0 :: behind))
    rw [List.length_append] at present
    rw [trim, isTrimmedKey, ← isFront]
    simpa using present
  have valueString : HasString ((frontValue ++ spaceOfValue) ++ (padded restOfValue ++ 0 :: behind))
      (frontValue.length + spaceOfValue.length) (trim value) := by
    have present := hasString_padded cleanRestValue (frontValue ++ spaceOfValue) behind
    rw [List.length_append] at present
    rw [trim, isTrimmedValue]
    exact present
  have regroup : (frontValue ++ spaceOfValue) ++ (padded restOfValue ++ 0 :: behind) =
      front ++ ((spaceOfKey ++ (padded restOfKey ++ 0 :: (spaceOfValue ++
        (padded restOfValue ++ [0])))) ++ behind) := by
    rw [← isFront]
    simp
  rw [FaultM.run_bind (strncmpEq_of_hasString keyString searchkey)]
  rw [regroup] at valueString ⊢
  refine ⟨_, _, ?_, valueString, ?_⟩
  · have lengthPaddedValue := padded_length restOfValue
    simp only [List.length_append, List.length_cons, List.length_nil]
    omega
  · by_cases begins : searchkey <+: trim key
    · simp only [begins, decide_true, if_true]
      rfl
    · simp only [begins, decide_false, if_false]
      rfl

theorem visitLine_comment (clean : 0 ∉ key ++ equals :: value)
    (noEnd : newline ∉ key ++ equals :: value) (noKey : equals ∉ key)
    (comment : ((key ++ equals :: value).dropWhile isSpace).head? = some hash) :
    visitLine searchkey front.length (front ++ ((key ++ equals :: value) ++ newline :: behind)) =
      some (.next (front.length + (key ++ equals :: value).length + 1),
        front ++ (key ++ 0 :: (value ++ 0 :: behind))) := by
  rcases exists_stop key (value ++ 0 :: behind) with ⟨first, restKey, isFirst, plainFirst, isByte⟩
  have isHash : first = hash := (hash_iff value isByte).mpr comment
  have spaces : ∀ other, other ∈ key.takeWhile isSpace → isSpace other = true :=
    fun other member => List.mem_takeWhile_imp member
  have cells : front ++ (key ++ 0 :: (value ++ 0 :: behind)) =
      front ++ (key.takeWhile isSpace ++ first :: restKey) := by
    rw [← isFirst, ← List.append_assoc (key.takeWhile isSpace), List.takeWhile_append_dropWhile]
  rw [visitLine_split clean noEnd noKey, cells,
    FaultM.run_bind (skipSpaces_text spaces plainFirst front restKey),
    FaultM.run_bind (readByte_text front _ restKey first), if_pos isHash]
  rfl

theorem visitLine_line (searchkey front behind : List Byte) (clean : 0 ∉ line)
    (noEnd : newline ∉ line) :
    ∃ visit after, after.length = line.length + 1 ∧
      visitLine searchkey front.length (front ++ (line ++ newline :: behind)) =
        some (visit, front ++ (after ++ behind)) ∧
      (visit = .next (front.length + line.length + 1) ∧
          (∀ entry, lineEntry line = some entry → ¬searchkey <+: entry.1) ∨
        ∃ entry found, visit = .matched found ∧ lineEntry line = some entry ∧
          searchkey <+: entry.1 ∧ HasString (front ++ (after ++ behind)) found entry.2) := by
  by_cases someKey : equals ∈ line
  · rcases List.eq_append_cons_of_mem someKey with ⟨key, value, rfl, noKey⟩
    by_cases comment : ((key ++ equals :: value).dropWhile isSpace).head? = some hash
    · refine ⟨_, key ++ 0 :: (value ++ [0]), ?_, ?_, Or.inl ⟨rfl, fun entry isEntry => ?_⟩⟩
      · simp only [List.length_append, List.length_cons, List.length_nil]
        omega
      · rw [visitLine_comment clean noEnd noKey comment]
        simp
      · rw [lineEntry_eq noKey, if_pos comment] at isEntry
        cases isEntry
    · rcases visitLine_trimmed searchkey front behind clean noEnd noKey comment with
        ⟨found, after, length, present, ran⟩
      have isEntry : lineEntry (key ++ equals :: value) = some (trim key, trim value) := by
        rw [lineEntry_eq noKey, if_neg comment]
      refine ⟨_, after, length, ran, ?_⟩
      by_cases begins : searchkey <+: trim key
      · rw [if_pos begins]
        exact Or.inr ⟨(trim key, trim value), found, rfl, isEntry, begins, present⟩
      · rw [if_neg begins]
        refine Or.inl ⟨rfl, fun entry isOther => ?_⟩
        rw [isEntry, Option.some.injEq] at isOther
        exact isOther ▸ begins
  · refine ⟨_, line ++ [0], by simp, ?_, Or.inl ⟨rfl, fun entry isEntry => ?_⟩⟩
    · rw [visitLine_keyless clean noEnd someKey]
      simp
    · rw [lineEntry_none someKey] at isEntry
      cases isEntry

end Line

/-! ## All lines -/

theorem entries_append {line : CString} (noEnd : newline ∉ line) (rest : List Byte) :
    entries (line ++ newline :: rest) = (lineEntry line).toList ++ entries rest := by
  rw [entries, lines_append noEnd, List.filterMap_cons, entries]
  cases lineEntry line <;> rfl

def firstBeginning (data : List Byte) (searchkey : CString) : Option (CString × CString) :=
  (entries data).find? fun entry => decide (searchkey <+: entry.1)

/-- What the loop has found: `none`, or a place with the value. -/
def Finds (searchkey : CString) (start : Lookup) (length : Nat) :
    Option (CString × CString) → Prop
  | none => ∃ cells, (propertyLoop searchkey).run start = some (none, cells)
  | some entry => ∃ found cells, (propertyLoop searchkey).run start = some (some found, cells) ∧
      cells.length = length ∧ HasString cells found entry.2

theorem Finds.of_again {searchkey : CString} {start next : Lookup} {length : Nat}
    {entry : Option (CString × CString)}
    (turned : (propertyLoop searchkey).body start = .again next)
    (finds : Finds searchkey next length entry) : Finds searchkey start length entry := by
  have sameRun := (propertyLoop searchkey).run_of_again turned
  cases entry with
  | none =>
      rcases finds with ⟨cells, ran⟩
      exact ⟨cells, sameRun.trans ran⟩
  | some entry =>
      rcases finds with ⟨found, cells, ran, size, present⟩
      exact ⟨found, cells, sameRun.trans ran, size, present⟩

theorem propertyLoop_finds (searchkey : CString) {data : List Byte} (clean : 0 ∉ data)
    (ended : lastLine data = []) :
    Finds searchkey { cells := data ++ [0], sol := 0 } (data.length + 1)
      (firstBeginning data searchkey) := by
  have general : 0 ∉ data → ∀ front : List Byte,
      Finds searchkey { cells := front ++ (data ++ [0]), sol := front.length }
        (front.length + data.length + 1) (firstBeginning data searchkey) := by
    refine lines_induction (motive := fun data => 0 ∉ data → ∀ front : List Byte,
      Finds searchkey { cells := front ++ (data ++ [0]), sol := front.length }
        (front.length + data.length + 1) (firstBeginning data searchkey)) ?nil ?line data ended
    case nil =>
      intro _ front
      have noEntry : firstBeginning [] searchkey = none := by
        rw [firstBeginning, entries, lines_plain List.not_mem_nil]
        rfl
      rw [noEntry]
      refine ⟨front ++ [0], (propertyLoop searchkey).run_of_finish ?_⟩
      simp only [propertyLoop, List.nil_append, visitLine_done]
    case line =>
      intro word rest noEnd induction clean front
      have cleanWord : 0 ∉ word := fun nul => clean (List.mem_append_left _ nul)
      have cleanRest : 0 ∉ rest := fun nul => clean (by simp [nul])
      have cells : front ++ (word ++ newline :: rest ++ [0]) =
          front ++ (word ++ newline :: (rest ++ [0])) := by simp
      rcases visitLine_line searchkey front (rest ++ [0]) cleanWord noEnd with
        ⟨visit, after, length, ran, ⟨rfl, noMatch⟩ | ⟨entry, found, rfl, isEntry, begins, present⟩⟩
      · have sameEntry : firstBeginning (word ++ newline :: rest) searchkey =
            firstBeginning rest searchkey := by
          rw [firstBeginning, entries_append noEnd, List.find?_append, firstBeginning]
          cases isEntry : lineEntry word with
          | none => rfl
          | some entry => simp [noMatch entry isEntry]
        have turned : (propertyLoop searchkey).body
            { cells := front ++ (word ++ newline :: rest ++ [0]), sol := front.length } =
            .again
              { cells := (front ++ after) ++ (rest ++ [0]), sol := (front ++ after).length } := by
          rw [cells, List.append_assoc]
          simp only [propertyLoop, ran, List.length_append, length]
          rfl
        have later := induction cleanRest (front ++ after)
        have total : (front ++ after).length + rest.length + 1 =
            front.length + (word ++ newline :: rest).length + 1 := by
          simp only [List.length_append, List.length_cons, length]
          omega
        rw [sameEntry, ← total]
        exact Finds.of_again turned later
      · have isFirst : firstBeginning (word ++ newline :: rest) searchkey = some entry := by
          rw [firstBeginning, entries_append noEnd, isEntry]
          simp [begins]
        rw [isFirst]
        refine ⟨found, _, (propertyLoop searchkey).run_of_finish ?_, ?_, present⟩
        · rw [cells]
          simp only [propertyLoop, ran]
        · simp only [List.length_append, List.length_cons, List.length_nil, length]
          omega
  simpa using general clean []

/-! ## The answer -/

theorem toInt_of_lt {count : Nat} (small : count < 2 ^ 31) : toInt count = count := by
  have low : -(((2 ^ 32 : Nat) : Int) / 2) ≤ (count : Int) := by omega
  have high : (count : Int) < (((2 ^ 32 : Nat) : Int) + 1) / 2 := by omega
  exact Int.bmod_eq_of_le low high

theorem copyText_eq {text : CString} (small : text.length + 1 < 2 ^ 31) :
    copyText text (toInt text.length) = some (copied text) := by
  have fits : 0 ≤ (text.length : Int) + 1 ∧ (text.length : Int) + 1 < 2 ^ 31 := by omega
  have whole : (text ++ [0]).take ((text.length : Int) + 1).toNat = text ++ [0] :=
    List.take_of_length_le (by rw [List.length_append, List.length_singleton]; omega)
  have smaller : text.length < 2 ^ 31 := Nat.lt_of_succ_lt small
  rw [toInt_of_lt smaller, copyText, if_pos fits, whole]
  rfl

theorem defaultAnswer_iff (notFound : CString) :
    defaultAnswer notFound = some (copied notFound) ↔ notFound.length + 1 < 2 ^ 31 := by
  refine ⟨fun same => ?_, copyText_eq⟩
  rw [defaultAnswer, copyText] at same
  by_cases fits : 0 ≤ toInt notFound.length + 1 ∧ toInt notFound.length + 1 < 2 ^ 31
  · rw [if_pos fits, Option.some.injEq, copied, Answer.mk.injEq] at same
    have sameLength := same.1
    omega
  · rw [if_neg fits] at same
    exact (Option.some_ne_none _ same.symm).elim

section Answers

variable {data searchkey notFound : CString}

def Correct (freed : List Byte → List Byte) (data searchkey notFound : CString) : Prop :=
  getProperty freed (some data) searchkey notFound = some (wanted data searchkey notFound)

/-- `free` may change the bytes of the block, not its size. -/
def KeepsSize (freed : List Byte → List Byte) : Prop :=
  ∀ cells, (freed cells).length = cells.length

theorem getProperty_of_none (clean : 0 ∉ data) (ended : lastLine data = [])
    (noEntry : firstBeginning data searchkey = none) (freed : List Byte → List Byte) :
    getProperty freed (some data) searchkey notFound = defaultAnswer notFound := by
  have finds := propertyLoop_finds searchkey clean ended
  rw [noEntry] at finds
  rcases finds with ⟨cells, ran⟩
  simp only [getProperty, ran]

theorem getProperty_of_some (notFound : CString) (clean : 0 ∉ data) (ended : lastLine data = [])
    {entry : CString × CString} (isEntry : firstBeginning data searchkey = some entry) :
    ∃ found cells, HasString cells found entry.2 ∧ ∀ freed : List Byte → List Byte,
      getProperty freed (some data) searchkey notFound =
        if found + (stringAt (freed cells) found).length < (freed cells).length then
          valueAnswer (stringAt (freed cells) found)
        else none := by
  have finds := propertyLoop_finds searchkey clean ended
  rw [isEntry] at finds
  rcases finds with ⟨found, cells, ran, -, present⟩
  refine ⟨found, cells, present, fun freed => ?_⟩
  simp only [getProperty, ran]

theorem wanted_of_none (noEntry : firstBeginning data searchkey = none) :
    wanted data searchkey notFound = copied notFound := by
  have noKey : (entries data).find? (·.1 = searchkey) = none := by
    rw [List.find?_eq_none]
    intro entry member isKey
    have noBeginning := List.find?_eq_none.mp noEntry entry member
    rw [decide_eq_true_eq] at isKey noBeginning
    exact noBeginning (isKey ▸ List.prefix_refl _)
  rw [wanted, noKey]

/-- A value whose length is too much, or has become -1 as an `int`. -/
def Refused (value : CString) : Prop :=
  propertyValueMax ≤ toInt value.length ∨ toInt value.length = -1

/-- The value stands for what is promised: it is the promised text and short, or both are too long. -/
def Serves (value : CString) (data searchkey notFound : CString) : Prop :=
  match (entries data).find? (·.1 = searchkey) with
  | none => value = notFound ∧ value.length < propertyValueMax
  | some named =>
      value = named.2 ∧ value.length < propertyValueMax ∨
        Refused value ∧ propertyValueMax ≤ named.2.length

theorem toInt_eq_of_short {value : CString} (short : value.length < propertyValueMax) :
    toInt value.length = value.length := by
  rw [propertyValueMax] at short
  exact toInt_of_lt (by omega)

theorem valueAnswer_refused_iff (value : CString) :
    valueAnswer value = some { ret := -1, found := [] } ↔ Refused value := by
  rw [valueAnswer, Refused]
  by_cases tooLong : propertyValueMax ≤ toInt value.length
  · simp only [tooLong, if_true, true_or]
  · simp only [tooLong, if_false, false_or]
    rw [propertyValueMax] at tooLong
    constructor
    · intro same
      unfold copyText at same
      split at same
      · simp only [Option.some.injEq, Answer.mk.injEq] at same
        exact same.1
      · cases same
    · intro isMinusOne
      rw [isMinusOne]
      rfl

theorem valueAnswer_copied_iff {value : CString} (clean : 0 ∉ value) (promised : CString) :
    valueAnswer value = some (copied promised) ↔
      value = promised ∧ value.length < propertyValueMax := by
  constructor
  · intro same
    unfold valueAnswer at same
    dsimp only at same
    split at same
    · simp only [copied, Option.some.injEq, Answer.mk.injEq] at same
      omega
    · rename_i short
      unfold copyText at same
      split at same
      · simp only [copied, Option.some.injEq, Answer.mk.injEq] at same
        rcases same with ⟨sameLength, sameText⟩
        have count : (toInt value.length + 1).toNat = promised.length + 1 := by omega
        rw [count] at sameText
        by_cases whole : value.length ≤ promised.length
        · rw [List.take_of_length_le (by simpa using whole)] at sameText
          have isText := List.append_cancel_right sameText
          exact ⟨isText, by rw [isText, ← sameLength]; omega⟩
        · rw [List.take_append_of_le_length (by omega)] at sameText
          have nul : 0 ∈ value.take (promised.length + 1) :=
            sameText ▸ List.mem_append_right _ (List.mem_singleton_self _)
          exact absurd (List.mem_of_mem_take nul) clean
      · cases same
  · rintro ⟨rfl, short⟩
    rw [valueAnswer, toInt_eq_of_short short]
    simp only [if_neg (Int.not_le.mpr short)]
    rw [← toInt_eq_of_short short]
    rw [propertyValueMax] at short
    exact copyText_eq (by omega)

theorem valueAnswer_wanted_iff {value : CString} (clean : 0 ∉ value)
    (data searchkey notFound : CString) :
    valueAnswer value = some (wanted data searchkey notFound) ↔
      Serves value data searchkey notFound := by
  rw [wanted, Serves]
  cases (entries data).find? (·.1 = searchkey) with
  | none => exact valueAnswer_copied_iff clean notFound
  | some named =>
      dsimp only
      by_cases tooLong : propertyValueMax ≤ named.2.length
      · rw [if_pos tooLong, valueAnswer_refused_iff]
        constructor
        · exact fun refused => Or.inr ⟨refused, tooLong⟩
        · rintro (⟨rfl, short⟩ | ⟨refused, -⟩)
          · exact absurd tooLong (Int.not_le.mpr short)
          · exact refused
      · rw [if_neg tooLong, valueAnswer_copied_iff clean]
        constructor
        · exact Or.inl
        · rintro (same | ⟨-, long⟩)
          · exact same
          · exact absurd long tooLong

theorem correct_id_iff (clean : 0 ∉ data) (ended : lastLine data = []) :
    Correct id data searchkey notFound ↔
      match firstBeginning data searchkey with
      | none => notFound.length + 1 < 2 ^ 31
      | some entry => Serves entry.2 data searchkey notFound := by
  rw [Correct]
  cases isEntry : firstBeginning data searchkey with
  | none =>
      rw [getProperty_of_none clean ended isEntry, wanted_of_none isEntry, defaultAnswer_iff]
  | some entry =>
      rcases getProperty_of_some notFound clean ended isEntry with
        ⟨found, cells, present, isAnswer⟩
      have sameString : stringAt (id cells) found = entry.2 := present.stringAt_eq
      have inside : found + entry.2.length < (id cells).length := present.bound
      rw [isAnswer id, sameString, if_pos inside]
      exact valueAnswer_wanted_iff present.clean data searchkey notFound

theorem correct_freed_iff (clean : 0 ∉ data) (ended : lastLine data = []) :
    (∀ freed, KeepsSize freed → Correct freed data searchkey notFound) ↔
      firstBeginning data searchkey = none ∧ notFound.length + 1 < 2 ^ 31 := by
  constructor
  · intro correct
    cases isEntry : firstBeginning data searchkey with
    | none =>
        have unchanged := (correct_id_iff clean ended).mp (correct id fun _ => rfl)
        rw [isEntry] at unchanged
        exact ⟨rfl, unchanged⟩
    | some entry =>
        rcases getProperty_of_some notFound clean ended isEntry with
          ⟨found, cells, present, isAnswer⟩
        -- a block without a NUL
        let freed := fun cells : List Byte => List.replicate cells.length (1 : Byte)
        have unchanged := correct freed fun cells => List.length_replicate
        have text : stringAt (freed cells) found = (freed cells).drop found := by
          rw [stringAt, List.takeWhile_eq_self_iff]
          intro byte member
          have isOne : byte = 1 := List.eq_of_mem_replicate (List.mem_of_mem_drop member)
          rw [isOne]
          decide
        have runsOut : ¬found + ((freed cells).drop found).length < (freed cells).length := by
          rw [List.length_drop]
          omega
        rw [Correct, isAnswer, text, if_neg runsOut] at unchanged
        cases unchanged
  · rintro ⟨noEntry, small⟩ freed -
    rw [Correct, getProperty_of_none clean ended noEntry, wanted_of_none noEntry]
    exact (defaultAnswer_iff notFound).mpr small

end Answers

/-- Whatever `free` does, the call does what is promised where no key begins with the search
key. If `free` does nothing it also does where the first such value serves for the promised one. -/
theorem getProperty_iff (data searchkey notFound : CString) (ends : data.getLast? = some newline)
    (clean : 0 ∉ data) :
    ((∀ freed, KeepsSize freed → Correct freed data searchkey notFound) ↔
        firstBeginning data searchkey = none ∧ notFound.length + 1 < 2 ^ 31) ∧
      (Correct id data searchkey notFound ↔
        match firstBeginning data searchkey with
        | none => notFound.length + 1 < 2 ^ 31
        | some entry => Serves entry.2 data searchkey notFound) :=
  have ended := lastLine_of_getLast? ends
  ⟨correct_freed_iff clean ended, correct_id_iff clean ended⟩

/-- A default, and in a block that `free` leaves alone a longer key with the same value. -/
theorem getProperty_small :
    (∀ freed, KeepsSize freed → Correct freed (ascii "a=1\n") (ascii "b") (ascii "0")) ∧
      Correct id (ascii "ab=1\n a = 1 \n") (ascii "a") (ascii "0") := by
  have byDefault := getProperty_iff (ascii "a=1\n") (ascii "b") (ascii "0") (by decide) (by decide)
  have byValue := getProperty_iff (ascii "ab=1\n a = 1 \n") (ascii "a") (ascii "0")
    (by decide) (by decide)
  exact ⟨byDefault.1.mpr (by decide), byValue.2.mpr (Or.inl (by decide))⟩

/-- The value of a longer key, and a value that `free` has cleared. -/
theorem getProperty_fails :
    (getProperty id (some (ascii "ab=0\na=1\n")) (ascii "a") [] = some (copied (ascii "0")) ∧
      ¬Correct id (ascii "ab=0\na=1\n") (ascii "a") []) ∧
    getProperty (fun cells => List.replicate cells.length 0) (some (ascii "a=1\n")) (ascii "a") [] =
      some (copied []) ∧
    ¬Correct (fun cells => List.replicate cells.length 0) (ascii "a=1\n") (ascii "a") [] := by
  refine ⟨⟨by decide, ?_⟩, by decide, ?_⟩
  · unfold Correct
    decide
  · unfold Correct
    decide

end SuBinary.Su.Property
