import SuBinary.Foundation.Loop
import SuBinary.Foundation.Memory

/-! # Tokens

`strtok_r` and the loops that take a string apart with it. Such a loop works on
the string in place: `strtok_r` ends a token by writing a NUL over the
delimiter after it, and the loop may shorten a token further. The loops are
compared with what they do to the list of tokens of the string.
-/

namespace SuBinary

/-! ## The tokens of a string -/

def tokens (delimiter : Byte → Bool) (text : CString) : List CString :=
  (text.splitOnP delimiter).filter (· ≠ [])

section Tokens

variable {delimiter : Byte → Bool}

theorem tokens_append_cons (front back : CString) {byte : Byte}
    (delimits : delimiter byte = true) :
    tokens delimiter (front ++ byte :: back) =
      tokens delimiter front ++ tokens delimiter back := by
  simp [tokens, List.splitOnP_append_cons front back delimits, List.filter_append]

theorem tokens_nil : tokens delimiter [] = [] := by
  simp [tokens]

theorem tokens_of_plain {word : CString} (someWord : word ≠ [])
    (plain : ∀ byte, byte ∈ word → delimiter byte = false) :
    tokens delimiter word = [word] := by
  simp [tokens, List.splitOnP_eq_singleton plain, someWord]

theorem tokens_of_delimiters {front : CString}
    (delimits : ∀ byte, byte ∈ front → delimiter byte = true) (back : CString) :
    tokens delimiter (front ++ back) = tokens delimiter back := by
  induction front with
  | nil => rfl
  | cons byte front induction =>
      have step := tokens_append_cons [] (front ++ back) (delimits byte (List.mem_cons_self ..))
      rw [List.nil_append, tokens_nil, List.nil_append] at step
      rw [List.cons_append, step]
      exact induction fun byte member => delimits byte (List.mem_cons_of_mem _ member)

theorem mem_tokens_ne_nil {text word : CString} (member : word ∈ tokens delimiter text) :
    word ≠ [] := by
  simpa using (List.mem_filter.mp member).2

end Tokens

/-! ## `strtok_r` -/

/-- A call of `strtok_r` that starts at `start`; the results are the token and
the saved pointer. -/
def strtokR (delimiter : Byte → Bool) (start : Nat) : MemM (Option Nat × Option Nat) :=
  fun memory =>
    let skipped := ((memory.cells.drop start).takeWhile delimiter).length
    let tok := start + skipped
    match memory.cells[tok]? with
    | none => none
    | some first =>
        if first = 0 then some ((none, none), memory.touch start (skipped + 1))
        else
          let length := ((memory.cells.drop tok).takeWhile
            fun byte => byte ≠ 0 && !delimiter byte).length
          match memory.cells[tok + length]? with
          | none => none
          | some stop =>
              let memory := memory.touch start (skipped + length + 1)
              if stop = 0 then some ((some tok, none), memory)
              else
                some ((some tok, some (tok + length + 1)),
                  { memory with cells := memory.cells.set (tok + length) 0 })

section Calls

variable {delimiter : Byte → Bool}

theorem takeWhile_front {check : Byte → Bool} {front : CString} {byte : Byte}
    (passes : ∀ byte, byte ∈ front → check byte = true) (fails : check byte = false)
    (back : CString) : (front ++ byte :: back).takeWhile check = front := by
  rw [List.takeWhile_append_of_pos passes]
  simp [fails]

theorem text_cases (delimiter : Byte → Bool) (text : CString) :
    (∀ byte, byte ∈ text → delimiter byte = true) ∨
    (∃ front word, (∀ byte, byte ∈ front → delimiter byte = true) ∧ word ≠ [] ∧
      (∀ byte, byte ∈ word → delimiter byte = false) ∧ text = front ++ word) ∨
    ∃ front word byte back, (∀ byte, byte ∈ front → delimiter byte = true) ∧ word ≠ [] ∧
      (∀ byte, byte ∈ word → delimiter byte = false) ∧ delimiter byte = true ∧
      text = front ++ (word ++ byte :: back) := by
  have delimits : ∀ byte, byte ∈ text.takeWhile delimiter → delimiter byte = true :=
    fun byte member => List.mem_takeWhile_imp member
  have split : text.takeWhile delimiter ++ text.dropWhile delimiter = text :=
    List.takeWhile_append_dropWhile
  cases back : text.dropWhile delimiter with
  | nil =>
      rw [back, List.append_nil] at split
      rw [split] at delimits
      exact Or.inl delimits
  | cons head tail =>
      have headPlain : delimiter head = false := by
        have := List.head?_dropWhile_not delimiter text
        simpa [back] using this
      let plainByte := fun byte => !delimiter byte
      have plain : ∀ byte, byte ∈ (head :: tail).takeWhile plainByte → delimiter byte = false :=
        fun byte member => by simpa [plainByte] using List.mem_takeWhile_imp member
      have someWord : (head :: tail).takeWhile plainByte ≠ [] := by
        simp [plainByte, headPlain]
      have wordSplit : (head :: tail).takeWhile plainByte ++ (head :: tail).dropWhile plainByte =
          head :: tail := List.takeWhile_append_dropWhile
      rw [back, ← wordSplit] at split
      cases rest : (head :: tail).dropWhile plainByte with
      | nil =>
          rw [rest, List.append_nil] at split
          exact Or.inr (Or.inl ⟨_, _, delimits, someWord, plain, split.symm⟩)
      | cons byte rest' =>
          rw [rest] at split
          have ends : delimiter byte = true := by
            have := List.head?_dropWhile_not plainByte (head :: tail)
            simpa [rest, plainByte] using this
          exact Or.inr (Or.inr ⟨_, _, byte, rest', delimits, someWord, plain, ends, split.symm⟩)

theorem text_induction (delimiter : Byte → Bool) {Motive : CString → Prop}
    (none : ∀ text, (∀ byte, byte ∈ text → delimiter byte = true) → Motive text)
    (last : ∀ front word, (∀ byte, byte ∈ front → delimiter byte = true) → word ≠ [] →
      (∀ byte, byte ∈ word → delimiter byte = false) → Motive (front ++ word))
    (more : ∀ front word byte back, (∀ byte, byte ∈ front → delimiter byte = true) → word ≠ [] →
      (∀ byte, byte ∈ word → delimiter byte = false) → delimiter byte = true → Motive back →
      Motive (front ++ (word ++ byte :: back)))
    (text : CString) : Motive text := by
  induction isLength : text.length using Nat.strong_induction_on generalizing text with
  | _ length induction =>
      rcases text_cases delimiter text with delimits |
        ⟨front, word, delimits, someWord, plain, rfl⟩ |
        ⟨front, word, byte, back, delimits, someWord, plain, ends, rfl⟩
      · exact none text delimits
      · exact last front word delimits someWord plain
      · have shorter : back.length < length := by
          rw [← isLength]
          simp
          omega
        exact more front word byte back delimits someWord plain ends (induction _ shorter back rfl)

/-- Splitting at some of the delimiters first makes no difference. -/
theorem tokens_refine {coarse fine : Byte → Bool}
    (finer : ∀ byte, coarse byte = true → fine byte = true) (text : CString) :
    tokens fine text = (tokens coarse text).flatMap (tokens fine) := by
  induction text using text_induction coarse with
  | none text delimits =>
      have coarseNone := tokens_of_delimiters delimits []
      have fineNone :=
        tokens_of_delimiters (fun byte member => finer byte (delimits byte member)) []
      rw [List.append_nil, tokens_nil] at coarseNone fineNone
      rw [coarseNone, fineNone, List.flatMap_nil]
  | last front word delimits someWord plain =>
      rw [tokens_of_delimiters delimits, tokens_of_plain someWord plain,
        tokens_of_delimiters fun byte member => finer byte (delimits byte member),
        List.flatMap_singleton]
  | more front word byte back delimits someWord plain ends induction =>
      rw [tokens_of_delimiters delimits, tokens_append_cons _ _ ends,
        tokens_of_plain someWord plain,
        tokens_of_delimiters fun byte member => finer byte (delimits byte member),
        tokens_append_cons _ _ (finer byte ends), List.flatMap_append, List.flatMap_singleton,
        induction]

def totalLength (words : List CString) : Nat := (words.map List.length).sum

theorem totalLength_cons (word : CString) (words : List CString) :
    totalLength (word :: words) = word.length + totalLength words := rfl

theorem totalLength_tokens_le (delimiter : Byte → Bool) (text : CString) :
    totalLength (tokens delimiter text) ≤ text.length := by
  induction text using text_induction delimiter with
  | none text delimits =>
      have noTokens := tokens_of_delimiters delimits []
      rw [List.append_nil, tokens_nil] at noTokens
      rw [noTokens]
      exact Nat.zero_le _
  | last front word delimits someWord plain =>
      rw [tokens_of_delimiters delimits, tokens_of_plain someWord plain, totalLength_cons,
        List.length_append]
      exact Nat.le_add_left _ _
  | more front word byte back delimits someWord plain ends induction =>
      rw [tokens_of_delimiters delimits, tokens_append_cons _ _ ends,
        tokens_of_plain someWord plain, List.singleton_append, totalLength_cons]
      simp only [List.length_append, List.length_cons]
      omega

variable {memory : Memory} {start : Nat}

theorem strtokR_none {text : CString} (noNul : delimiter 0 = false)
    (present : HasString memory.cells start text)
    (delimits : ∀ byte, byte ∈ text → delimiter byte = true) :
    strtokR delimiter start memory =
      some ((none, none), memory.touch start (text.length + 1)) := by
  have skip : (memory.cells.drop start).takeWhile delimiter = text := by
    rw [present.drop_eq]
    exact takeWhile_front delimits noNul _
  simp [strtokR, skip, present.ends]

theorem strtokR_scan {front word : CString} {stop : Byte} {rest : List Byte}
    (here : memory.cells.drop start = front ++ (word ++ stop :: rest))
    (delimits : ∀ byte, byte ∈ front → delimiter byte = true) (someWord : word ≠ [])
    (clean : 0 ∉ word) (plain : ∀ byte, byte ∈ word → delimiter byte = false)
    (stops : stop = 0 ∨ delimiter stop = true) :
    strtokR delimiter start memory =
      if stop = 0 then
        some ((some (start + front.length), none),
          memory.touch start (front.length + word.length + 1))
      else
        some ((some (start + front.length), some (start + front.length + word.length + 1)),
          { memory.touch start (front.length + word.length + 1) with
            cells := memory.cells.set (start + front.length + word.length) 0 }) := by
  rcases List.exists_cons_of_ne_nil someWord with ⟨head, tail, rfl⟩
  have headPlain := plain head (List.mem_cons_self ..)
  have headSome : head ≠ 0 := fun isNul => clean (isNul ▸ List.mem_cons_self ..)
  have skip : (memory.cells.drop start).takeWhile delimiter = front := by
    rw [here]
    exact takeWhile_front delimits headPlain _
  have atTok : memory.cells.drop (start + front.length) = head :: tail ++ stop :: rest := by
    rw [← List.drop_drop, here, List.drop_left]
  have first : memory.cells[start + front.length]? = some head := by
    rw [← Nat.add_zero (start + front.length), ← List.getElem?_drop, atTok]
    rfl
  have length : (memory.cells.drop (start + front.length)).takeWhile
      (fun byte => byte ≠ 0 && !delimiter byte) = head :: tail := by
    rw [atTok]
    apply takeWhile_front
    · intro byte member
      have notNul : byte ≠ 0 := fun isNul => clean (isNul ▸ member)
      simp [notNul, plain byte member]
    · rcases stops with rfl | ends
      · simp
      · simp [ends]
  have last : memory.cells[start + front.length + (tail.length + 1)]? = some stop := by
    rw [← List.getElem?_drop, atTok,
      List.getElem?_append_right (by simp)]
    simp
  simp only [strtokR, skip, first, headSome, if_false, length, List.length_cons, last]
  rfl

theorem exists_takeWhile (check : Byte → Bool) (bytes : List Byte) :
    ∃ front back, bytes = front ++ back ∧ bytes.takeWhile check = front ∧
      (∀ byte, byte ∈ front → check byte = true) ∧
      ∀ byte, back.head? = some byte → check byte = false := by
  refine ⟨_, bytes.dropWhile check, List.takeWhile_append_dropWhile.symm, rfl,
    fun byte member => List.mem_takeWhile_imp member, fun byte isHead => ?_⟩
  have := List.head?_dropWhile_not check bytes
  simpa [isHead] using this

theorem strtokR_some {result : Option Nat × Option Nat} {after : Memory}
    (ran : strtokR delimiter start memory = some (result, after)) :
    (result = (none, none) ∧ after = memory.touch start
      (((memory.cells.drop start).takeWhile delimiter).length + 1)) ∨
    ∃ front word stop rest, memory.cells.drop start = front ++ (word ++ stop :: rest) ∧
      (∀ byte, byte ∈ front → delimiter byte = true) ∧ word ≠ [] ∧ 0 ∉ word ∧
      (∀ byte, byte ∈ word → delimiter byte = false) ∧
      (stop = 0 ∨ delimiter stop = true) := by
  rcases exists_takeWhile delimiter (memory.cells.drop start) with
    ⟨front, back, split, isFront, delimits, backHead⟩
  have atFront : memory.cells.drop (start + front.length) = back := by
    rw [← List.drop_drop, split, List.drop_left]
  rcases exists_takeWhile (fun byte => byte ≠ 0 && !delimiter byte) back with
    ⟨word, rest, wordSplit, isWord, inWord, restHead⟩
  have atWord : memory.cells.drop (start + front.length + word.length) = rest := by
    rw [← List.drop_drop, atFront, wordSplit, List.drop_left]
  have backFirst : memory.cells[start + front.length]? = back.head? := by
    rw [← atFront, List.head?_drop]
  have restFirst : memory.cells[start + front.length + word.length]? = rest.head? := by
    rw [← atWord, List.head?_drop]
  simp only [strtokR, isFront, atFront, isWord, backFirst, restFirst] at ran
  split at ran
  · cases ran
  · rename_i first isFirst
    split at ran
    · cases ran
      exact Or.inl ⟨rfl, by rw [isFront]⟩
    · rename_i firstSome
      split at ran
      · cases ran
      · rename_i stop isStop
        obtain ⟨rest, rfl⟩ : ∃ others, rest = stop :: others := List.head?_eq_some_iff.mp isStop
        have clean : ∀ byte, byte ∈ word → byte ≠ 0 ∧ delimiter byte = false :=
          fun byte member => by simpa using inWord byte member
        refine Or.inr ⟨front, word, stop, rest, by rw [split, wordSplit], delimits, ?_,
          fun nul => (clean 0 nul).1 rfl, fun byte member => (clean byte member).2, ?_⟩
        · rintro rfl
          rw [List.nil_append] at wordSplit
          rw [wordSplit] at isFirst backHead
          obtain rfl : stop = first := Option.some.inj isFirst
          have stops := restHead stop rfl
          simp [firstSome, backHead stop rfl] at stops
        · have stops := restHead stop rfl
          by_cases isNul : stop = 0
          · exact Or.inl isNul
          · exact Or.inr (by simpa [isNul] using stops)

theorem strtokR_extends {result : Option Nat × Option Nat} {after : Memory}
    (ran : strtokR delimiter start memory = some (result, after)) :
    Extends memory after ∧ start ∈ after.touched := by
  have first : ∀ count, start ∈ (memory.touch start (count + 1)).touched := fun count =>
    List.mem_append_left _ (List.mem_range'_1.mpr ⟨Nat.le_refl _, by omega⟩)
  rcases strtokR_some ran with ⟨-, rfl⟩ |
    ⟨front, word, stop, rest, here, delimits, someWord, clean, plain, stops⟩
  · exact ⟨Extends.touch _ _ _, first _⟩
  · rw [strtokR_scan here delimits someWord clean plain stops] at ran
    split at ran
    · cases ran
      exact ⟨Extends.touch _ _ _, first _⟩
    · cases ran
      exact ⟨(Extends.touch _ _ _).trans (Extends.set _ _ _), first _⟩

def roomAfter (size : Nat) : Option Nat → Nat
  | none => 0
  | some next => size - next + 1

def roomOf (cells : List Byte) : Option Nat → Nat
  | none => 0
  | some tok => (stringAt cells tok).length + 1

theorem drop_set_stop {cells : List Byte} {tok : Nat} {word : CString} {stop : Byte}
    {rest : List Byte} (here : cells.drop tok = word ++ stop :: rest) :
    (cells.set (tok + word.length) 0).drop tok = word ++ 0 :: rest := by
  rw [List.drop_set, if_neg (by omega), here, Nat.add_sub_cancel_left,
    List.set_append_right _ _ (Nat.le_refl _)]
  simp

theorem strtokR_room {tok saveptr : Option Nat} {after : Memory}
    (ran : strtokR delimiter start memory = some ((tok, saveptr), after)) :
    roomOf after.cells tok + roomAfter after.cells.length saveptr ≤
      roomAfter memory.cells.length (some start) := by
  rcases strtokR_some ran with ⟨isNone, -⟩ |
    ⟨front, word, stop, rest, here, delimits, someWord, clean, plain, stops⟩
  · cases isNone
    simp [roomOf, roomAfter]
  · have size := congrArg List.length here
    simp only [List.length_drop, List.length_append, List.length_cons] at size
    have atTok : memory.cells.drop (start + front.length) = word ++ stop :: rest := by
      rw [← List.drop_drop, here, List.drop_left]
    rw [strtokR_scan here delimits someWord clean plain stops] at ran
    split at ran
    · rename_i isNul
      cases ran
      rw [isNul] at atTok
      have token : stringAt memory.cells (start + front.length) = word :=
        (HasString.of_drop clean atTok).stringAt_eq
      simp only [roomOf, roomAfter, Memory.touch, token]
      omega
    · cases ran
      have token : stringAt (memory.cells.set (start + front.length + word.length) 0)
          (start + front.length) = word :=
        (HasString.of_drop clean (drop_set_stop atTok)).stringAt_eq
      simp only [roomOf, roomAfter, token, List.length_set]
      omega

end Calls

end SuBinary
