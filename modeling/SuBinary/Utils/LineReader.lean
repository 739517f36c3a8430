import SuBinary.Utils.Fdgets

/-! # What line reading keeps

When the results of `fdgets` are together the content, and what happens to the content
otherwise: a full buffer loses a byte, and an end without a newline takes over bytes of
earlier lines.
-/

namespace SuBinary.Utils

open SuBinary

/-! ## All results -/

theorem content_induction {size : Nat} {motive : List Byte → Prop} (nil : motive [])
    (line : ∀ word rest, Plain word → word.length + 1 < size → 0 ∉ rest → motive rest →
      motive (word ++ newline :: rest))
    (full : ∀ word rest, Plain word → word.length + 1 = size → 0 ∉ rest → motive rest.tail →
      motive (word ++ rest))
    (last : ∀ word, Plain word → word ≠ [] → word.length + 1 < size → motive word)
    (big : 2 ≤ size) (content : List Byte) (clean : 0 ∉ content) : motive content := by
  induction isLength : content.length using Nat.strong_induction_on generalizing content with
  | _ length induction =>
      subst isLength
      have split : content.takeWhile (· ≠ newline) ++ content.dropWhile (· ≠ newline) = content :=
        List.takeWhile_append_dropWhile
      have noNewline : newline ∉ content.takeWhile (· ≠ newline) := by
        intro member
        simpa using List.mem_takeWhile_imp member
      have ends := List.head?_dropWhile_not (· ≠ newline) content
      generalize content.takeWhile (· ≠ newline) = word at split noNewline
      generalize content.dropWhile (· ≠ newline) = rest at split ends
      subst split
      rw [List.mem_append, not_or] at clean
      by_cases fits : word.length + 1 < size
      · cases rest with
        | nil =>
            rw [List.append_nil]
            by_cases someWord : word = []
            · exact someWord ▸ nil
            · exact last word ⟨clean.1, noNewline⟩ someWord fits
        | cons byte rest =>
            have isEnd : byte = newline := by simpa using ends
            subst isEnd
            have cleanRest : 0 ∉ rest := fun nul => clean.2 (List.mem_cons_of_mem _ nul)
            refine line word rest ⟨clean.1, noNewline⟩ fits cleanRest ?_
            exact induction rest.length (by simp; omega) rest cleanRest rfl
      · have front := List.take_append_drop (size - 1) word
        have plain : Plain (word.take (size - 1)) :=
          ⟨fun nul => clean.1 (List.mem_of_mem_take nul),
            fun stop => noNewline (List.mem_of_mem_take stop)⟩
        have cleanRest : 0 ∉ word.drop (size - 1) ++ rest := by
          rw [List.mem_append, not_or]
          exact ⟨fun nul => clean.1 (List.mem_of_mem_drop nul), clean.2⟩
        have length : (word.take (size - 1)).length + 1 = size := by
          rw [List.length_take]
          omega
        rw [← front, List.append_assoc]
        refine full _ _ plain length cleanRest (induction _ ?_ _ ?_ rfl)
        · simp
          omega
        · exact fun nul => cleanRest (List.mem_of_mem_tail nul)

section

variable {size : Nat} {buf content : List Byte}

theorem invented_dropLast (old : List Byte) : newline ∉ (invented old).dropLast := by
  induction old with
  | nil => simp [invented]
  | cons byte rest induction =>
      rw [invented]
      split
      · simp
      · split
        · simp
        · rename_i notEnd
          cases later : invented rest with
          | nil => simp
          | cons next later =>
              rw [later] at induction
              rw [List.dropLast_cons_of_ne_nil (List.cons_ne_nil _ _), List.mem_cons, not_or]
              exact ⟨Ne.symm notEnd, induction⟩

theorem invented_length_le (old : List Byte) : (invented old).length ≤ old.length := by
  induction old with
  | nil => exact Nat.le_refl _
  | cons byte rest induction =>
      rw [invented]
      split
      · simp
      · split
        · simp
        · simpa using induction

theorem stored_length {text : List Byte} (fits : buf.length = size) (room : text.length < size) :
    (stored size buf text).length = size := by
  simp [stored]
  omega

/-- The byte length of a result is right, it leaves room for the NUL, and a newline ends it. -/
structure IsResult (size : Nat) (result : Nat × CString) : Prop where
  nonempty : result.2 ≠ []
  length : result.1 = result.2.length
  bound : result.2.length ≤ size - 1
  newlines : newline ∉ result.2.dropLast

theorem isResult_of_line {word : List Byte} (plain : Plain word) (room : word.length + 1 < size) :
    IsResult size (word.length + 1, word ++ [newline]) where
  nonempty := by simp
  length := by simp
  bound := by
    rw [List.length_append, List.length_singleton]
    omega
  newlines := by
    rw [List.dropLast_concat]
    exact plain.2

theorem isResult_of_full {word : List Byte} (plain : Plain word) (full : word.length + 1 = size)
    (big : 2 ≤ size) : IsResult size (word.length, word) where
  nonempty := by
    have positive : 0 < word.length := by omega
    exact List.ne_nil_of_length_pos positive
  length := rfl
  bound := Nat.le_sub_of_add_le (Nat.le_of_eq full)
  newlines := fun member => plain.2 (List.mem_of_mem_dropLast member)

theorem isResult_of_end {word : List Byte} (plain : Plain word) (someWord : word ≠ [])
    (fits : buf.length = size) (room : word.length + 1 < size) :
    IsResult size ((endText buf word).length, endText buf word) where
  nonempty := by simp [endText, someWord]
  length := rfl
  bound := by
    have := invented_length_le (buf.drop word.length).dropLast
    rw [List.length_dropLast, List.length_drop] at this
    rw [endText, List.length_append]
    omega
  newlines := by
    have noEnd := invented_dropLast (buf.drop word.length).dropLast
    intro member
    rw [endText] at member
    by_cases none : invented (buf.drop word.length).dropLast = []
    · rw [none, List.append_nil] at member
      exact plain.2 (List.mem_of_mem_dropLast member)
    · rw [List.dropLast_append_of_ne_nil none, List.mem_append] at member
      exact member.elim plain.2 noEnd

theorem readAll_isResult (big : 2 ≤ size) (clean : 0 ∉ content) : ∀ buf : List Byte,
    buf.length = size → ∀ result, result ∈ readAll size buf content → IsResult size result := by
  refine content_induction (motive := fun content => ∀ buf : List Byte, buf.length = size →
    ∀ result, result ∈ readAll size buf content → IsResult size result) ?nil ?line ?full ?last big
    content clean
  case nil =>
    intro buf fits result member
    rw [readAll_nil] at member
    cases member
  case line =>
    intro word rest plain room cleanRest induction buf fits result member
    rw [readAll_line plain fits room] at member
    rcases List.mem_cons.mp member with rfl | later
    · exact isResult_of_line plain room
    · exact induction _ (stored_length fits (by simpa using room)) result later
  case full =>
    intro word rest plain full cleanRest induction buf fits result member
    rw [readAll_full plain fits full (List.ne_nil_of_length_pos (by omega))] at member
    rcases List.mem_cons.mp member with rfl | later
    · exact isResult_of_full plain full big
    · exact induction _ (by simpa using full) result later
  case last =>
    intro word plain someWord room buf fits result member
    rw [readAll_end plain someWord fits room, List.mem_singleton] at member
    subst member
    exact isResult_of_end plain someWord fits room

end

/-! ## The text that is read -/

def readText (size : Nat) (buf content : List Byte) : List Byte :=
  ((readAll size buf content).map Prod.snd).flatten

section Text

variable {size : Nat} {buf content word : List Byte}

theorem readText_nil (size : Nat) (buf : List Byte) : readText size buf [] = [] := by
  rw [readText, readAll_nil]
  rfl

theorem readText_line (plain : Plain word) (fits : buf.length = size)
    (room : word.length + 1 < size) (rest : List Byte) :
    readText size buf (word ++ newline :: rest) =
      (word ++ [newline]) ++ readText size (stored size buf (word ++ [newline])) rest := by
  rw [readText, readAll_line plain fits room]
  rfl

theorem readText_full (plain : Plain word) (fits : buf.length = size)
    (full : word.length + 1 = size) (big : 2 ≤ size) (rest : List Byte) :
    readText size buf (word ++ rest) = word ++ readText size (word ++ [0]) rest.tail := by
  rw [readText, readAll_full plain fits full (List.ne_nil_of_length_pos (by omega))]
  rfl

theorem readText_end (plain : Plain word) (someWord : word ≠ []) (fits : buf.length = size)
    (room : word.length + 1 < size) : readText size buf word = endText buf word := by
  rw [readText, readAll_end plain someWord fits room]
  exact List.append_nil _

theorem exists_moved {front later whole rest : List Byte} (same : front ++ later = whole ++ rest)
    (longer : front.length ≤ whole.length) :
    ∃ moved, whole = front ++ moved ∧ later = moved ++ rest := by
  rcases List.append_eq_append_iff.mp same with ⟨moved, isWhole, isLater⟩ | ⟨more, isFront, isRest⟩
  · exact ⟨moved, isWhole, isLater⟩
  · have none : more = [] := by
      have := congrArg List.length isFront
      rw [List.length_append] at this
      exact List.eq_nil_of_length_eq_zero (by omega)
    subst none
    rw [List.append_nil] at isFront
    exact ⟨[], by rw [isFront, List.append_nil], isRest.symm⟩

/-- Once text is missing in front of a content with a newline, or the missing text has one,
the rest cannot make up for it. -/
theorem readText_ne (big : 2 ≤ size) (clean : 0 ∉ content) : ∀ buf : List Byte,
    buf.length = size → ∀ missing : List Byte, missing ≠ [] → newline ∈ missing ++ content →
      readText size buf content ≠ missing ++ content := by
  refine content_induction (motive := fun content => ∀ buf : List Byte, buf.length = size →
    ∀ missing : List Byte, missing ≠ [] → newline ∈ missing ++ content →
      readText size buf content ≠ missing ++ content) ?nil ?line ?full ?last big content clean
  case nil =>
    intro buf fits missing someMissing _ same
    rw [readText_nil, List.append_nil] at same
    exact someMissing same.symm
  case line =>
    intro word rest plain room cleanRest induction buf fits missing someMissing _ same
    have regroup : missing ++ (word ++ newline :: rest) =
        (missing ++ (word ++ [newline])) ++ rest := by
      simp
    rw [readText_line plain fits room, regroup] at same
    rcases exists_moved same (by simp) with ⟨moved, isMoved, isLater⟩
    have someMoved : moved ≠ [] := by
      rintro rfl
      have := congrArg List.length isMoved
      rw [List.append_nil, List.length_append] at this
      exact someMissing (List.eq_nil_of_length_eq_zero (by omega))
    -- the line is still in front of the rest, or has pushed its newline there
    have isEnd : newline ∈ moved := by
      have last := congrArg List.getLast? isMoved
      rw [← List.append_assoc, List.getLast?_concat, List.getLast?_append_of_ne_nil _ someMoved]
        at last
      exact List.mem_of_getLast? last.symm
    exact induction _ (stored_length fits (by simpa using room)) moved someMoved
      (List.mem_append_left _ isEnd) isLater
  case full =>
    intro word rest plain full cleanRest induction buf fits missing someMissing someEnd same
    rw [readText_full plain fits full big] at same
    cases rest with
    | nil =>
        rw [List.tail_nil, readText_nil, List.append_nil] at same
        have := congrArg List.length same
        rw [List.length_append] at this
        exact someMissing (List.eq_nil_of_length_eq_zero (by omega))
    | cons lost rest =>
        have regroup : missing ++ (word ++ lost :: rest) = (missing ++ word ++ [lost]) ++ rest := by
          simp
        rw [regroup] at same someEnd
        rcases exists_moved same (by simp; omega) with ⟨moved, isMoved, isLater⟩
        have someMoved : moved ≠ [] := by
          rintro rfl
          have := congrArg List.length isMoved
          simp only [List.append_nil, List.length_append, List.length_singleton] at this
          omega
        rw [isMoved, List.append_assoc, List.mem_append] at someEnd
        exact induction _ (by simpa using full) moved someMoved
          (someEnd.resolve_left plain.2) isLater
  case last =>
    intro word plain someWord room buf fits missing someMissing someEnd same
    rw [readText_end plain someWord fits room, endText] at same
    have noEnd := invented_dropLast (buf.drop word.length).dropLast
    generalize invented (buf.drop word.length).dropLast = added at same noEnd
    -- the only newline of what is added would be the last byte of the rest
    rw [← same, List.mem_append] at someEnd
    have someAdded := List.ne_nil_of_mem (someEnd.resolve_left plain.2)
    rw [← List.dropLast_concat_getLast someAdded, List.mem_append, List.mem_singleton] at someEnd
    have isEnd := (someEnd.resolve_left plain.2).resolve_left noEnd
    have last := congrArg List.getLast? same
    rw [List.getLast?_append_of_ne_nil _ someAdded, List.getLast?_append_of_ne_nil _ someWord,
      List.getLast?_eq_some_getLast someAdded, ← isEnd] at last
    exact plain.2 (List.mem_of_getLast? last.symm)

end Text

/-! ## A long rest without a newline -/

/-- The bytes without the one behind every `period` of them; `count` are left until then. -/
def skipEvery (period : Nat) : Nat → List Byte → List Byte
  | _, [] => []
  | 0, _ :: rest => skipEvery period period rest
  | count + 1, byte :: rest => byte :: skipEvery period count rest

section Skips

variable {period : Nat} {word rest : List Byte}

theorem skipEvery_append : ∀ {count : Nat}, word.length ≤ count →
    skipEvery period count (word ++ rest) =
      word ++ skipEvery period (count - word.length) rest := by
  induction word with
  | nil =>
      intro count _
      rfl
  | cons byte word induction =>
      intro count enough
      cases count with
      | zero => simp at enough
      | succ count =>
          rw [List.cons_append, skipEvery, induction (by simpa using enough), List.length_cons,
            Nat.add_sub_add_right, List.cons_append]

theorem skipEvery_short (short : word.length ≤ period) : skipEvery period period word = word := by
  have skipped := @skipEvery_append period word [] _ short
  rw [List.append_nil] at skipped
  rw [skipped]
  cases period - word.length <;> exact List.append_nil _

theorem skipEvery_cons (full : word.length = period) (lost : Byte) :
    skipEvery period period (word ++ lost :: rest) = word ++ skipEvery period period rest := by
  rw [skipEvery_append (Nat.le_of_eq full), full, Nat.sub_self, skipEvery]

theorem skipEvery_length (period : Nat) (text : List Byte) :
    (skipEvery period period text).length + text.length / (period + 1) = text.length := by
  induction isLength : text.length using Nat.strong_induction_on generalizing text with
  | _ length induction =>
      subst isLength
      by_cases short : text.length ≤ period
      · rw [skipEvery_short short, Nat.div_eq_of_lt (Nat.lt_succ_of_le short)]
        rfl
      · rcases List.exists_cons_of_length_pos (by simp; omega : 0 < (text.drop period).length) with
          ⟨lost, rest, isRest⟩
        have split : text = text.take period ++ lost :: rest := by
          rw [← isRest, List.take_append_drop]
        have full : (text.take period).length = period := by
          rw [List.length_take]
          omega
        have total : text.length = rest.length + (period + 1) := by
          rw [split, List.length_append, full, List.length_cons]
          omega
        have shorter := induction rest.length (by omega) rest rfl
        have positive : 0 < period + 1 := Nat.succ_pos period
        rw [total, Nat.add_div_right _ positive, split, skipEvery_cons full, List.length_append,
          full]
        omega

theorem skipEvery_getElem? (positive : 0 < period) (text : List Byte) (index : Nat) :
    (skipEvery period period text)[index]? = text[index + index / period]? := by
  induction isLength : text.length using Nat.strong_induction_on generalizing text index with
  | _ length induction =>
      subst isLength
      by_cases short : text.length ≤ period
      · rw [skipEvery_short short]
        by_cases inside : index < period
        · rw [Nat.div_eq_of_lt inside, Nat.add_zero]
        · have beyond : text.length ≤ index := by omega
          rw [List.getElem?_eq_none beyond,
            List.getElem?_eq_none (beyond.trans (Nat.le_add_right _ _))]
      · rcases List.exists_cons_of_length_pos (by simp; omega : 0 < (text.drop period).length) with
          ⟨lost, rest, isRest⟩
        have split : text = text.take period ++ lost :: rest := by
          rw [← isRest, List.take_append_drop]
        have full : (text.take period).length = period := by
          rw [List.length_take]
          omega
        have shorter : rest.length < text.length := by
          rw [split, List.length_append, List.length_cons]
          omega
        generalize text.take period = word at split full
        subst split
        rw [skipEvery_cons full]
        by_cases inside : index < period
        · rw [Nat.div_eq_of_lt inside, Nat.add_zero, List.getElem?_append_left (by omega),
            List.getElem?_append_left (by omega)]
        · have quotient : index / period = (index - period) / period + 1 := by
            rw [← Nat.add_div_right _ positive, Nat.sub_add_cancel (by omega)]
          have behind := induction rest.length shorter rest (index - period) rfl
          generalize (index - period) / period = earlier at quotient behind
          have later : index + (earlier + 1) - word.length = (index - period + earlier) + 1 := by
            omega
          rw [quotient, List.getElem?_append_right (by omega),
            List.getElem?_append_right (by omega), full, behind, ← full, later,
            List.getElem?_cons_succ, full]

end Skips

/-- The bytes of the last full buffer that the end of the content leaves standing; `whole` is
the content from the start of a buffer on. -/
def leftBehind (size : Nat) (whole : List Byte) : List Byte :=
  if whole.length % size = 0 then []
  else
    ((whole.drop ((whole.length / size - 1) * size)).take (size - 1)).drop (whole.length % size)

theorem leftBehind_append {size : Nat} {word rest : List Byte} {lost : Byte}
    (full : word.length + 1 = size) (long : size ≤ rest.length) :
    leftBehind size (word ++ lost :: rest) = leftBehind size rest := by
  have total : (word ++ lost :: rest).length = rest.length + size := by
    rw [List.length_append, List.length_cons]
    omega
  have positive : 0 < size := by omega
  have someBuffer : 1 ≤ rest.length / size := (Nat.one_le_div_iff positive).mpr long
  have start : (rest.length / size + 1 - 1) * size =
      word.length + 1 + (rest.length / size - 1) * size := by
    rw [full, Nat.add_sub_cancel, Nat.sub_mul, Nat.one_mul, Nat.add_sub_cancel']
    exact Nat.le_mul_of_pos_left size someBuffer
  rw [leftBehind, leftBehind, total, Nat.add_mod_right, Nat.add_div_right _ positive, start,
    ← List.drop_drop]
  have dropped : (word ++ lost :: rest).drop (word.length + 1) = rest := by simp
  rw [dropped]

theorem leftBehind_short {size : Nat} {word rest : List Byte} (lost : Byte)
    (full : word.length + 1 = size) (short : rest.length < size) :
    leftBehind size (word ++ lost :: rest) = if rest = [] then [] else word.drop rest.length := by
  have total : (word ++ lost :: rest).length = rest.length + size := by
    rw [List.length_append, List.length_cons]
    omega
  have positive : 0 < size := by omega
  have front : (word ++ lost :: rest).take (size - 1) = word := by
    rw [List.take_append_of_le_length (by omega), List.take_of_length_le (by omega)]
  rw [leftBehind, total, Nat.add_mod_right, Nat.mod_eq_of_lt short, Nat.add_div_right _ positive,
    Nat.div_eq_of_lt short, Nat.zero_add, Nat.sub_self, Nat.zero_mul, List.drop_zero, front]
  simp only [List.length_eq_zero_iff]

theorem invented_of_plain {old : List Byte} (plain : Plain old) : invented old = old := by
  induction old with
  | nil => rfl
  | cons byte rest induction =>
      rcases plain_cons.mp plain with ⟨notNul, notEnd, plainRest⟩
      rw [invented, if_neg notNul, if_neg notEnd, induction plainRest]

theorem Plain.drop {text : List Byte} (plain : Plain text) (count : Nat) :
    Plain (text.drop count) :=
  ⟨fun nul => plain.1 (List.mem_of_mem_drop nul), fun stop => plain.2 (List.mem_of_mem_drop stop)⟩

/-- After a full buffer, and without a newline, each further buffer loses its byte, and the
end shows what the last buffer has left. -/
theorem readText_after_full {size : Nat} {content : List Byte} (big : 2 ≤ size)
    (clean : 0 ∉ content) : newline ∉ content → ∀ (word : List Byte) (lost : Byte), Plain word →
      word.length + 1 = size → readText size (word ++ [0]) content =
        skipEvery (size - 1) (size - 1) content ++ leftBehind size (word ++ lost :: content) := by
  refine content_induction (motive := fun content => newline ∉ content →
    ∀ (word : List Byte) (lost : Byte), Plain word →
      word.length + 1 = size → readText size (word ++ [0]) content =
        skipEvery (size - 1) (size - 1) content ++ leftBehind size (word ++ lost :: content))
    ?nil ?line ?full ?last big content clean
  case nil =>
    intro _ word lost plain full
    rw [readText_nil, leftBehind_short lost full (by simp; omega), if_pos rfl, skipEvery]
    rfl
  case line =>
    intro word rest _ _ _ _ noEnd
    exact absurd (by simp) noEnd
  case full =>
    intro next rest plainNext fullNext cleanRest induction noEnd word lost plain full
    have fits : (word ++ [0]).length = size := by simpa using full
    have isPeriod : next.length = size - 1 := by omega
    rw [readText_full plainNext fits fullNext big]
    cases rest with
    | nil =>
        have someNext : next ≠ [] := List.ne_nil_of_length_pos (by omega)
        rw [List.append_nil, List.tail_nil, readText_nil, skipEvery_short (Nat.le_of_eq isPeriod),
          leftBehind_short lost full (by omega), if_neg someNext, List.drop_eq_nil_of_le (by omega)]
    | cons byte rest =>
        have noEndRest : newline ∉ rest := fun stop => noEnd (by simp [stop])
        rw [induction noEndRest next byte plainNext fullNext, List.tail_cons,
          skipEvery_cons isPeriod, leftBehind_append full (by simp; omega), List.append_assoc]
  case last =>
    intro next plainNext someNext room _ word lost plain full
    have fits : (word ++ [0]).length = size := by simpa using full
    have behind : ((word ++ [0]).drop next.length).dropLast = word.drop next.length := by
      rw [List.drop_append_of_le_length (by omega), List.dropLast_concat]
    rw [readText_end plainNext someNext fits room, endText, behind,
      invented_of_plain (plain.drop _), skipEvery_short (by omega),
      leftBehind_short lost full (by omega), if_neg someNext]

/-! ## When nothing is lost and nothing invented -/

/-- A rest without a newline of which as many bytes are left out as are taken over from the
buffer, `count` of them, and where this makes no difference: each byte is the one that comes
to stand there. -/
def Repeats (size : Nat) (rest : List Byte) : Prop :=
  ∃ count, 0 < count ∧ count + 1 < size ∧ rest.length = (count + 1) * (size - 1) ∧
    ∀ index, index < rest.length →
      rest[index]? =
        if index + count < rest.length then rest[index + index / (size - 1)]?
        else rest[index + index / (size - 1) - size]?

section Repeats

variable {size count : Nat} {rest : List Byte}

theorem repeats_length (few : count + 1 < size) (length : rest.length = (count + 1) * (size - 1)) :
    rest.length = size * count + (size - 1 - count) ∧ rest.length / size = count ∧
      rest.length % size = size - 1 - count := by
  have split : rest.length = size * count + (size - 1 - count) := by
    obtain ⟨more, rfl⟩ : ∃ more, size = count + 1 + 1 + more := ⟨size - (count + 2), by omega⟩
    rw [length, show count + 1 + 1 + more - 1 = count + 1 + more by omega,
      show count + 1 + more - count = 1 + more by omega]
    ring
  have remainder : size - 1 - count < size := by omega
  refine ⟨split, ?_, ?_⟩
  · rw [split, Nat.mul_add_div (by omega), Nat.div_eq_of_lt remainder, Nat.add_zero]
  · rw [split, Nat.mul_add_mod, Nat.mod_eq_of_lt remainder]

theorem leftBehind_of_length (few : count + 1 < size)
    (length : rest.length = (count + 1) * (size - 1)) :
    leftBehind size rest =
      ((rest.drop ((count - 1) * size)).take (size - 1)).drop (size - 1 - count) := by
  rcases repeats_length few length with ⟨-, quotient, remainder⟩
  rw [leftBehind, quotient, remainder, if_neg (by omega)]

theorem leftBehind_getElem? (positive : 0 < count) (few : count + 1 < size)
    (length : rest.length = (count + 1) * (size - 1)) {index : Nat} (inside : index < rest.length)
    (behind : rest.length ≤ index + count) :
    (leftBehind size rest)[index + count - rest.length]? =
      rest[index + index / (size - 1) - size]? := by
  rcases repeats_length few length with ⟨split, -, -⟩
  obtain ⟨before, rfl⟩ : ∃ before, count = before + 1 := ⟨count - 1, by omega⟩
  obtain ⟨offset, isOffset⟩ : ∃ offset, index + (before + 1) - rest.length = offset := ⟨_, rfl⟩
  have isIndex : index = (size - 1) * (before + 1) + (size - 1 - (before + 1) + offset) := by
    have := Nat.sub_one_mul size (before + 1)
    have : before + 1 ≤ size * (before + 1) := Nat.le_mul_of_pos_left _ (by omega)
    omega
  have quotient : index / (size - 1) = before + 1 := by
    rw [isIndex, Nat.mul_add_div (by omega), Nat.div_eq_of_lt (by omega), Nat.add_zero]
  have place : before * size + (size - 1 - (before + 1) + offset) =
      index + index / (size - 1) - size := by
    have regroup : size * (before + 1) = before * size + size := by ring
    rw [quotient]
    omega
  rw [isOffset, leftBehind_of_length few length, List.getElem?_drop,
    List.getElem?_take_of_lt (by omega), List.getElem?_drop, Nat.add_sub_cancel, place]

theorem skipEvery_leftBehind_getElem? (positive : 0 < count) (few : count + 1 < size)
    (length : rest.length = (count + 1) * (size - 1)) {index : Nat} (inside : index < rest.length) :
    (skipEvery (size - 1) (size - 1) rest ++ leftBehind size rest)[index]? =
      if index + count < rest.length then rest[index + index / (size - 1)]?
      else rest[index + index / (size - 1) - size]? := by
  rcases repeats_length few length with ⟨-, quotient, -⟩
  have skipped := skipEvery_length (size - 1) rest
  rw [Nat.sub_add_cancel (by omega : 1 ≤ size), quotient] at skipped
  by_cases kept : index + count < rest.length
  · rw [if_pos kept, List.getElem?_append_left (by omega), skipEvery_getElem? (by omega)]
  · have place : index - (skipEvery (size - 1) (size - 1) rest).length =
        index + count - rest.length := by
      omega
    rw [if_neg kept, List.getElem?_append_right (by omega), place,
      leftBehind_getElem? positive few length inside (by omega)]

theorem leftBehind_length (someBehind : rest.length % size ≠ 0) (long : size ≤ rest.length)
    (big : 2 ≤ size) : (leftBehind size rest).length = size - 1 - rest.length % size := by
  have positive : 0 < size := by omega
  have someBuffer : 1 ≤ rest.length / size := (Nat.one_le_div_iff positive).mpr long
  have buffers := Nat.div_mul_le_self rest.length size
  have before : (rest.length / size - 1) * size = rest.length / size * size - size := by
    rw [Nat.sub_mul, Nat.one_mul]
  have oneBuffer : size ≤ rest.length / size * size := Nat.le_mul_of_pos_left size someBuffer
  rw [leftBehind, if_neg someBehind, List.length_drop, List.length_take, List.length_drop, before]
  omega

theorem skipEvery_leftBehind_iff (long : size ≤ rest.length) (big : 2 ≤ size) :
    skipEvery (size - 1) (size - 1) rest ++ leftBehind size rest = rest ↔ Repeats size rest := by
  have skipped := skipEvery_length (size - 1) rest
  rw [Nat.sub_add_cancel (by omega : 1 ≤ size)] at skipped
  have someBuffer : 1 ≤ rest.length / size := (Nat.one_le_div_iff (by omega)).mpr long
  constructor
  · intro same
    have total := congrArg List.length same
    rw [List.length_append] at total
    have someBehind : rest.length % size ≠ 0 := by
      intro none
      rw [leftBehind, if_pos none, List.length_nil] at total
      omega
    rw [leftBehind_length someBehind long big] at total
    have whole := Nat.div_add_mod rest.length size
    generalize isCount : rest.length / size = count at skipped someBuffer whole
    have few : count + 1 < size := by omega
    have length : rest.length = (count + 1) * (size - 1) := by
      obtain ⟨more, rfl⟩ : ∃ more, size = count + 1 + 1 + more := ⟨size - (count + 2), by omega⟩
      have remainder : rest.length % (count + 1 + 1 + more) = 1 + more := by omega
      rw [← whole, remainder, show count + 1 + 1 + more - 1 = count + 1 + more by omega]
      ring
    refine ⟨count, someBuffer, few, length, fun index inside => ?_⟩
    rw [← skipEvery_leftBehind_getElem? someBuffer few length inside, same]
  · rintro ⟨count, positive, few, length, bytes⟩
    rcases repeats_length few length with ⟨split, quotient, remainder⟩
    have total : (skipEvery (size - 1) (size - 1) rest ++ leftBehind size rest).length =
        rest.length := by
      rw [List.length_append, leftBehind_length (by omega) long big, remainder]
      omega
    apply List.ext_getElem?
    intro index
    by_cases inside : index < rest.length
    · rw [bytes index inside, skipEvery_leftBehind_getElem? positive few length inside]
    · rw [List.getElem?_eq_none (by omega), List.getElem?_eq_none (by omega)]

end Repeats

/-! ## The condition -/

/-- The byte that lines of text leave at an index, where there has been `byte` before: each
line comes with its newline and a NUL. -/
def byteAfter (index : Nat) (byte : Byte) (earlier : List CString) : Byte :=
  earlier.foldl
    (fun byte line => if line.length + 1 < index then byte else (line ++ [newline]).getD index 0)
    byte

/-- Lines fit into the buffer with their newline. A rest without a newline is empty, or fills
the buffer, or is shorter and the buffer has a NUL behind it, or repeats itself. -/
structure Keeps (size : Nat) (buf content : List Byte) : Prop where
  fits : ∀ line, line ∈ lines content → line.length + 1 < size
  rest : lastLine content = [] ∨ (lastLine content).length + 1 = size ∨
    ((lastLine content).length + 1 < size ∧
      byteAfter (lastLine content).length (buf.getD (lastLine content).length 0)
        (lines content) = 0) ∨
    Repeats size (lastLine content)

section Condition

variable {size : Nat} {buf content word : List Byte}

theorem stored_getD {text : List Byte} {index : Nat} (inside : index + 1 < size) :
    (stored size buf text).getD index 0 =
      if text.length < index then buf.getD index 0 else text.getD index 0 := by
  rw [stored, List.getD_eq_getElem?_getD, List.getElem?_set_ne (by omega)]
  by_cases behind : text.length < index
  · rw [if_pos behind, List.getElem?_append_right (by omega),
      show index - text.length = (index - text.length - 1) + 1 by omega, List.getElem?_cons_succ,
      List.getElem?_drop, show text.length + 1 + (index - text.length - 1) = index by omega,
      List.getD_eq_getElem?_getD]
  · rw [if_neg behind]
    rcases Nat.lt_or_ge index text.length with within | atEnd
    · rw [List.getElem?_append_left within, List.getD_eq_getElem?_getD]
    · have isEnd : index = text.length := by omega
      subst isEnd
      simp

theorem keeps_line (noEnd : newline ∉ word) (room : word.length + 1 < size) (rest : List Byte) :
    Keeps size buf (word ++ newline :: rest) ↔
      Keeps size (stored size buf (word ++ [newline])) rest := by
  have sameByte : (lastLine rest).length + 1 < size →
      byteAfter (lastLine rest).length (buf.getD (lastLine rest).length 0) (word :: lines rest) =
        byteAfter (lastLine rest).length
          ((stored size buf (word ++ [newline])).getD (lastLine rest).length 0) (lines rest) := by
    intro inside
    rw [stored_getD inside, List.length_append, List.length_singleton]
    rfl
  constructor
  · rintro ⟨fits, isRest⟩
    rw [lines_append noEnd] at fits isRest
    rw [lastLine_append noEnd] at isRest
    refine ⟨fun line member => fits line (List.mem_cons_of_mem _ member), ?_⟩
    refine isRest.imp_right (Or.imp_right (Or.imp_left fun short => ⟨short.1, ?_⟩))
    rw [← sameByte short.1]
    exact short.2
  · rintro ⟨fits, isRest⟩
    constructor
    · intro line member
      rw [lines_append noEnd] at member
      rcases List.mem_cons.mp member with rfl | member
      · exact room
      · exact fits line member
    · rw [lines_append noEnd, lastLine_append noEnd]
      refine isRest.imp_right (Or.imp_right (Or.imp_left fun short => ⟨short.1, ?_⟩))
      rw [sameByte short.1]
      exact short.2

end Condition

/-- The results are not empty, have the right lengths and newlines only at their ends, and
are together the content. -/
structure LosesNothing (size : Nat) (buf content : List Byte) : Prop where
  results : ∀ result, result ∈ readAll size buf content → IsResult size result
  whole : readText size buf content = content

section Main

variable {size : Nat} {buf content word : List Byte}

theorem readText_full_iff (big : 2 ≤ size) (plain : Plain word) (fits : buf.length = size)
    (full : word.length + 1 = size) (rest : List Byte) (clean : 0 ∉ rest) :
    readText size buf (word ++ rest) = word ++ rest ↔ Keeps size buf (word ++ rest) := by
  rw [readText_full plain fits full big]
  cases rest with
  | nil =>
      rw [List.tail_nil, readText_nil, List.append_nil]
      refine iff_of_true rfl ⟨?_, ?_⟩
      · rw [lines_plain plain.2]
        intro line member
        cases member
      · rw [lastLine_plain plain.2]
        exact Or.inr (Or.inl full)
  | cons lost rest =>
      have cleanRest : 0 ∉ rest := fun nul => clean (List.mem_cons_of_mem _ nul)
      have fitsNext : (word ++ [0]).length = size := by simpa using full
      rw [List.tail_cons, List.append_cancel_left_eq]
      by_cases noEnd : newline ∈ lost :: rest
      · have losesByte := readText_ne big cleanRest (word ++ [0]) fitsNext [lost]
          (List.cons_ne_nil _ _) noEnd
        refine iff_of_false losesByte fun keeps => ?_
        rcases List.eq_append_cons_of_mem noEnd with ⟨front, back, isBoth, noEndFront⟩
        have long := keeps.fits (word ++ front)
        rw [isBoth, ← List.append_assoc,
          lines_append (by simp [plain.2, noEndFront]), List.length_append] at long
        have := long List.mem_cons_self
        omega
      · have noEndRest : newline ∉ rest := fun stop => noEnd (List.mem_cons_of_mem _ stop)
        have noEndWhole : newline ∉ word ++ lost :: rest := by
          rw [List.mem_append, not_or]
          exact ⟨plain.2, noEnd⟩
        have isPeriod : word.length = size - 1 := by omega
        have long : size ≤ (word ++ lost :: rest).length := by
          simp
          omega
        rw [← List.append_right_inj word,
          readText_after_full big cleanRest noEndRest word lost plain full, ← List.append_assoc,
          ← skipEvery_cons isPeriod lost, skipEvery_leftBehind_iff long big]
        constructor
        · intro repeats
          refine ⟨?_, ?_⟩
          · rw [lines_plain noEndWhole]
            intro line member
            cases member
          · rw [lastLine_plain noEndWhole]
            exact Or.inr (Or.inr (Or.inr repeats))
        · intro keeps
          have isRest := keeps.rest
          rw [lastLine_plain noEndWhole] at isRest
          rcases isRest with none | fills | ⟨short, -⟩ | repeats
          · simp at none
          · omega
          · omega
          · exact repeats

theorem invented_eq_nil_iff {byte : Byte} {rest : List Byte} :
    invented (byte :: rest) = [] ↔ byte = 0 := by
  rw [invented]
  split
  · rename_i isNul
    exact iff_of_true rfl isNul
  · rename_i notNul
    refine iff_of_false ?_ notNul
    split <;> exact List.cons_ne_nil _ _

theorem Repeats.long {rest : List Byte} (repeats : Repeats size rest) : size ≤ rest.length := by
  rcases repeats with ⟨count, positive, few, length, -⟩
  rw [(repeats_length few length).1]
  have := Nat.le_mul_of_pos_right size positive
  omega

theorem readText_end_iff (plain : Plain word) (someWord : word ≠ []) (fits : buf.length = size)
    (room : word.length + 1 < size) :
    readText size buf word = word ↔ Keeps size buf word := by
  rcases List.exists_cons_of_length_pos (by rw [List.length_drop]; omega :
    0 < (buf.drop word.length).length) with ⟨byte, behind, isBehind⟩
  have isByte : buf.getD word.length 0 = byte := by
    have first := congrArg List.head? isBehind
    rw [List.head?_drop, List.head?_cons] at first
    rw [List.getD_eq_getElem?_getD, first, Option.getD_some]
  have someMore : behind ≠ [] := by
    rintro rfl
    have := congrArg List.length isBehind
    rw [List.length_drop, List.length_singleton] at this
    omega
  rw [readText_end plain someWord fits room, endText, isBehind,
    List.dropLast_cons_of_ne_nil someMore, List.append_right_eq_self, invented_eq_nil_iff]
  constructor
  · intro isNul
    refine ⟨?_, ?_⟩
    · rw [lines_plain plain.2]
      intro line member
      cases member
    · rw [lastLine_plain plain.2, lines_plain plain.2]
      exact Or.inr (Or.inr (Or.inl ⟨room, isByte.trans isNul⟩))
  · intro keeps
    have isRest := keeps.rest
    rw [lastLine_plain plain.2, lines_plain plain.2] at isRest
    rcases isRest with none | fills | ⟨-, isNul⟩ | repeats
    · exact absurd none someWord
    · omega
    · exact isByte.symm.trans isNul
    · have := repeats.long
      omega

theorem readText_iff (big : 2 ≤ size) (clean : 0 ∉ content) : ∀ buf : List Byte,
    buf.length = size → (readText size buf content = content ↔ Keeps size buf content) := by
  refine content_induction (motive := fun content => ∀ buf : List Byte, buf.length = size →
    (readText size buf content = content ↔ Keeps size buf content)) ?nil ?line ?full ?last big
    content clean
  case nil =>
    intro buf fits
    have noEnd : newline ∉ ([] : List Byte) := List.not_mem_nil
    rw [readText_nil]
    refine iff_of_true rfl ⟨?_, Or.inl (lastLine_plain noEnd)⟩
    rw [lines_plain noEnd]
    intro line member
    cases member
  case line =>
    intro word rest plain room cleanRest induction buf fits
    rw [keeps_line plain.2 room, readText_line plain fits room, List.append_cons word newline rest,
      List.append_cancel_left_eq]
    exact induction _ (stored_length fits (by simpa using room))
  case full =>
    intro word rest plain full cleanRest _ buf fits
    exact readText_full_iff big plain fits full rest cleanRest
  case last =>
    intro word plain someWord room buf fits
    exact readText_end_iff plain someWord fits room

end Main

/-- For a content without NULs: the reader is faithful under the condition, and only then. -/
theorem losesNothing_iff (size : Nat) (buf content : List Byte) (big : 2 ≤ size)
    (fits : buf.length = size) (clean : 0 ∉ content) :
    LosesNothing size buf content ↔ Keeps size buf content := by
  rw [← readText_iff big clean buf fits]
  constructor
  · exact fun loses => loses.whole
  · exact fun whole => ⟨readAll_isResult big clean buf fits, whole⟩

/-- A line that fits, and a rest that fills the buffer. -/
theorem losesNothing_small : LosesNothing 4 [1, 2, 3, 4] (ascii "ab\ncde") :=
  (losesNothing_iff 4 [1, 2, 3, 4] (ascii "ab\ncde") (by decide) (by decide) (by decide)).mpr
    ⟨by decide, Or.inr (Or.inl (by decide))⟩

/-- The byte behind a full buffer is lost, and behind a short rest the buffer is read on. -/
theorem losesNothing_fails :
    (readText 3 [0, 0, 0] (ascii "abc") = ascii "ab" ∧ ¬LosesNothing 3 [0, 0, 0] (ascii "abc")) ∧
      readText 4 [0, 0, 0, 0] (ascii "ab\nc") = ascii "ab\ncb\n" ∧
      ¬LosesNothing 4 [0, 0, 0, 0] (ascii "ab\nc") := by
  have loses : readText 3 [0, 0, 0] (ascii "abc") = ascii "ab" := by decide
  have invents : readText 4 [0, 0, 0, 0] (ascii "ab\nc") = ascii "ab\ncb\n" := by decide
  refine ⟨⟨loses, fun holds => ?_⟩, invents, fun holds => ?_⟩
  · have whole := holds.whole
    rw [loses] at whole
    exact absurd whole (by decide)
  · have whole := holds.whole
    rw [invents] at whole
    exact absurd whole (by decide)

end SuBinary.Utils
