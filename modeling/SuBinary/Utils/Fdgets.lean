import SuBinary.Foundation.Loop
import SuBinary.Foundation.Lines
import SuBinary.Foundation.Memory

/-! # Reading lines

`fdgets` of `misc.c` on a descriptor with some content, and the results of calling it until
it returns 0.
-/

namespace SuBinary.Utils

open SuBinary

/-! ## The function -/

/-- The result, the buffer and what the descriptor still has. -/
structure LineState where
  len : Nat
  buf : List Byte
  content : List Byte
deriving DecidableEq

/-- `read(fd, buf + len, 1)`, which is 0 at the end and never negative. -/
def LineState.read (state : LineState) : LineState :=
  match state.content with
  | [] => state
  | byte :: rest => { state with buf := state.buf.set state.len byte, content := rest }

def fdgetsLoop (size : Nat) : Loop LineState LineState where
  body := fun state =>
    let state := state.read
    if state.len < size - 1 then
      if state.buf.getD state.len 0 = 0 then
        .finish { state with buf := state.buf.set state.len 0 }
      else if state.buf.getD state.len 0 = newline then
        .finish { state with len := state.len + 1, buf := state.buf.set (state.len + 1) 0 }
      else .again { state with len := state.len + 1 }
    else .finish state
  rank := fun state => size - state.len
  decreases := by
    intro state next turned
    have sameLen : state.read.len = state.len := by
      unfold LineState.read
      split <;> rfl
    dsimp only at turned
    split at turned
    · rename_i inside
      rw [sameLen] at inside
      split at turned
      · cases turned
      · split at turned
        · cases turned
        · cases turned
          dsimp only
          omega
    · cases turned

def fdgets (size : Nat) (buf content : List Byte) : LineState :=
  let state := (fdgetsLoop size).run { len := 0, buf := buf.set 0 0, content }
  { state with buf := state.buf.set (size - 1) 0 }

/-! ## One call -/

/-- What is taken from the buffer at the end of the content, as if it had just been read. -/
def invented : List Byte → List Byte
  | [] => []
  | byte :: rest =>
      if byte = 0 then []
      else if byte = newline then [newline]
      else byte :: invented rest

def stored (size : Nat) (buf text : List Byte) : List Byte :=
  (text ++ 0 :: buf.drop (text.length + 1)).set (size - 1) 0

def Plain (text : List Byte) : Prop := 0 ∉ text ∧ newline ∉ text

theorem plain_cons {byte : Byte} {text : List Byte} :
    Plain (byte :: text) ↔ byte ≠ 0 ∧ byte ≠ newline ∧ Plain text := by
  simp only [Plain, List.mem_cons, not_or]
  constructor
  · rintro ⟨⟨notNul, noNul⟩, notEnd, noEnd⟩
    exact ⟨Ne.symm notNul, Ne.symm notEnd, noNul, noEnd⟩
  · rintro ⟨notNul, notEnd, noNul, noEnd⟩
    exact ⟨⟨Ne.symm notNul, noNul⟩, Ne.symm notEnd, noEnd⟩

theorem nul_not_mem_invented (old : List Byte) : 0 ∉ invented old := by
  induction old with
  | nil => simp [invented]
  | cons byte rest induction =>
      rw [invented]
      split
      · simp
      · split
        · decide
        · rename_i notNul _
          simp [induction, Ne.symm notNul]

section Calls

variable {size : Nat} {before old rest : List Byte}

theorem read_cons (before old : List Byte) (stale byte : Byte) (rest : List Byte) :
    LineState.read
        { len := before.length, buf := before ++ stale :: old, content := byte :: rest } =
      { len := before.length, buf := before ++ byte :: old, content := rest } := by
  simp [LineState.read]

theorem read_nil (len : Nat) (buf : List Byte) :
    LineState.read { len, buf, content := [] } = { len, buf, content := [] } := rfl

theorem getD_append_cons (before old : List Byte) (byte : Byte) :
    (before ++ byte :: old).getD before.length 0 = byte := by
  simp [List.getD_eq_getElem?_getD]

theorem run_plain (size : Nat) {word : List Byte} (plain : Plain word) (rest : List Byte) :
    ∀ (before old : List Byte), before.length + word.length ≤ size - 1 → word.length ≤ old.length →
      (fdgetsLoop size).run
          { len := before.length, buf := before ++ old, content := word ++ rest } =
        (fdgetsLoop size).run
          { len := (before ++ word).length
            buf := (before ++ word) ++ old.drop word.length
            content := rest } := by
  induction word with
  | nil =>
      intro before old _ _
      simp
  | cons byte word induction =>
      intro before old room inside
      rcases plain_cons.mp plain with ⟨notNul, notEnd, plainRest⟩
      cases old with
      | nil => simp at inside
      | cons stale old =>
          rw [List.length_cons] at room inside
          have turned : (fdgetsLoop size).body
              { len := before.length
                buf := before ++ stale :: old
                content := byte :: (word ++ rest) } =
              .again
                { len := before.length + 1
                  buf := before ++ byte :: old
                  content := word ++ rest } := by
            simp only [fdgetsLoop, read_cons, getD_append_cons, if_neg notNul, if_neg notEnd,
              if_pos (show before.length < size - 1 by omega)]
          rw [List.cons_append, (fdgetsLoop size).run_of_again turned]
          have next := induction plainRest (before ++ [byte]) old (by simp; omega)
            (by simpa using inside)
          simpa using next

theorem run_newline (rest : List Byte) {stale other : Byte} (room : before.length < size - 1) :
    (fdgetsLoop size).run
        { len := before.length
          buf := before ++ stale :: other :: old
          content := newline :: rest } =
      { len := before.length + 1, buf := before ++ newline :: 0 :: old, content := rest } := by
  apply (fdgetsLoop size).run_of_finish
  have notNul : newline ≠ 0 := by decide
  simp only [fdgetsLoop, read_cons, getD_append_cons, if_neg notNul, if_pos room]
  simp

/-- A full buffer: one more byte is read, into the last slot. -/
theorem run_full (content : List Byte) (stale : Byte) (full : before.length = size - 1) :
    ∃ last, (fdgetsLoop size).run { len := before.length, buf := before ++ [stale], content } =
      { len := before.length, buf := before ++ [last], content := content.tail } := by
  have noRoom : ¬before.length < size - 1 := by omega
  cases content with
  | nil =>
      refine ⟨stale, (fdgetsLoop size).run_of_finish ?_⟩
      simp only [fdgetsLoop, read_nil]
      exact if_neg noRoom
  | cons byte rest =>
      refine ⟨byte, (fdgetsLoop size).run_of_finish ?_⟩
      simp only [fdgetsLoop, read_cons]
      exact if_neg noRoom

theorem set_behind (text rest : List Byte) (index : Nat) (behind : text.length ≤ index) :
    ∃ after, (text ++ 0 :: rest).set index 0 = text ++ 0 :: after := by
  rw [List.set_append_right _ _ behind]
  cases index - text.length with
  | zero => exact ⟨rest, rfl⟩
  | succ index => exact ⟨rest.set index 0, rfl⟩

/-- At the end of the content the loop goes on with what the buffer has there. -/
theorem run_end (size : Nat) (old : List Byte) (last : Byte) : ∀ before : List Byte, 0 ∉ before →
    size = before.length + old.length + 1 → ∃ buf after,
      (fdgetsLoop size).run
          { len := before.length, buf := before ++ (old ++ [last]), content := [] } =
        { len := (before ++ invented old).length, buf, content := [] } ∧
      buf.set (size - 1) 0 = (before ++ invented old) ++ 0 :: after := by
  induction old with
  | nil =>
      intro before noNul isSize
      have full : before.length = size - 1 := by
        rw [isSize]
        rfl
      rcases run_full [] last full with ⟨byte, ran⟩
      refine ⟨before ++ [byte], [], ?_, ?_⟩
      · rw [List.nil_append, ran, invented, List.append_nil, List.tail_nil]
      · rw [invented, List.append_nil, ← full, List.set_append_right _ _ (Nat.le_refl _)]
        simp
  | cons byte old induction =>
      intro before noNul isSize
      rw [List.length_cons] at isSize
      have room : before.length < size - 1 := by omega
      rw [List.cons_append]
      by_cases isNul : byte = 0
      · subst isNul
        rcases set_behind before (old ++ [last]) (size - 1) (by omega) with
          ⟨after, isAfter⟩
        refine ⟨before ++ 0 :: (old ++ [last]), after, (fdgetsLoop size).run_of_finish ?_, ?_⟩
        · simp only [fdgetsLoop, read_nil, getD_append_cons, if_pos room, if_true, invented,
            List.append_nil]
          rw [List.set_append_right _ _ (Nat.le_refl _)]
          simp
        · rw [isAfter, invented, if_pos rfl, List.append_nil]
      · by_cases isEnd : byte = newline
        · subst isEnd
          have isInvented : invented (newline :: old) = [newline] := by
            rw [invented, if_neg isNul, if_pos rfl]
          rcases List.exists_cons_of_ne_nil (List.append_ne_nil_of_right_ne_nil old
            (List.cons_ne_nil last [])) with ⟨other, rest, isRest⟩
          rcases set_behind (before ++ [newline]) rest (size - 1) (by simp; omega) with
            ⟨after, isAfter⟩
          refine ⟨(before ++ [newline]) ++ 0 :: rest, after, (fdgetsLoop size).run_of_finish ?_, ?_⟩
          · simp only [fdgetsLoop, read_nil, getD_append_cons, if_pos room, if_neg isNul, if_true,
              isInvented, isRest]
            simp
          · rw [isAfter, isInvented]
        · have turned : (fdgetsLoop size).body
              { len := before.length
                buf := before ++ byte :: (old ++ [last])
                content := [] } =
              .again
                { len := before.length + 1
                  buf := before ++ byte :: (old ++ [last])
                  content := [] } := by
            simp only [fdgetsLoop, read_nil, getD_append_cons, if_neg isNul, if_neg isEnd,
              if_pos room]
          have noNulNext : 0 ∉ before ++ [byte] := by
            simp [noNul, Ne.symm isNul]
          rcases induction (before ++ [byte]) noNulNext (by simp; omega) with
            ⟨buf, after, ran, isAfter⟩
          have isInvented :
              before ++ invented (byte :: old) = (before ++ [byte]) ++ invented old := by
            rw [invented, if_neg isNul, if_neg isEnd, List.append_cons]
          refine ⟨buf, after, ?_, ?_⟩
          · rw [(fdgetsLoop size).run_of_again turned, isInvented, ← ran]
            simp
          · rw [isInvented, isAfter]

theorem fdgets_eq (size : Nat) (buf content : List Byte) :
    fdgets size buf content =
      let state := (fdgetsLoop size).run { len := 0, buf := buf.set 0 0, content }
      { state with buf := state.buf.set (size - 1) 0 } := rfl

variable {buf word : List Byte}

theorem fdgets_plain (plain : Plain word) (fits : buf.length = size) (room : word.length < size)
    (rest : List Byte) :
    (fdgetsLoop size).run { len := 0, buf := buf.set 0 0, content := word ++ rest } =
      (fdgetsLoop size).run
        { len := word.length
          buf := word ++ (buf.set 0 0).drop word.length
          content := rest } := by
  have ran := run_plain size plain rest [] (buf.set 0 0) (by simp; omega) (by simp; omega)
  simpa using ran

theorem drop_set_zero {count : Nat} (positive : 0 < count) :
    (buf.set 0 0).drop count = buf.drop count := by
  cases buf with
  | nil => rfl
  | cons first others =>
      cases count with
      | zero => cases positive
      | succ count => rfl

theorem fdgets_line (plain : Plain word) (fits : buf.length = size) (room : word.length + 1 < size)
    (rest : List Byte) :
    fdgets size buf (word ++ newline :: rest) =
      { len := word.length + 1, buf := stored size buf (word ++ [newline]), content := rest } := by
  have two : 2 ≤ ((buf.set 0 0).drop word.length).length := by
    simp
    omega
  rcases List.exists_cons_of_length_pos (by omega :
    0 < ((buf.set 0 0).drop word.length).length) with ⟨stale, behind, isBehind⟩
  rw [isBehind, List.length_cons] at two
  rcases List.exists_cons_of_length_pos (by omega : 0 < behind.length) with ⟨other, old, rfl⟩
  have isOld : old = buf.drop (word.length + 2) := by
    have dropped := congrArg (List.drop 2) isBehind
    rw [List.drop_drop, drop_set_zero (by omega)] at dropped
    exact dropped.symm
  rw [fdgets_eq, fdgets_plain plain fits (by omega) (newline :: rest), isBehind,
    run_newline rest (by omega), isOld]
  simp [stored]

/-- A full buffer; the byte behind it is gone. -/
theorem fdgets_full (plain : Plain word) (fits : buf.length = size)
    (full : word.length + 1 = size) (rest : List Byte) :
    fdgets size buf (word ++ rest) =
      { len := word.length, buf := word ++ [0], content := rest.tail } := by
  have one : ((buf.set 0 0).drop word.length).length = 1 := by
    simp
    omega
  rcases List.length_eq_one_iff.mp one with ⟨stale, isStale⟩
  have isFull : word.length = size - 1 := by omega
  rcases run_full rest stale isFull with ⟨last, ran⟩
  rw [fdgets_eq, fdgets_plain plain fits (by omega) rest, isStale, ran]
  dsimp only
  rw [← isFull, List.set_append_right _ _ (Nat.le_refl _)]
  simp

def endText (buf word : List Byte) : List Byte :=
  word ++ invented ((buf.drop word.length).dropLast)

theorem fdgets_end (plain : Plain word) (someWord : word ≠ []) (fits : buf.length = size)
    (room : word.length + 1 < size) :
    ∃ after, fdgets size buf word =
      { len := (endText buf word).length
        buf := endText buf word ++ 0 :: after
        content := [] } := by
  have positive := List.length_pos_of_ne_nil someWord
  have someBehind : buf.drop word.length ≠ [] := by
    intro none
    have := congrArg List.length none
    rw [List.length_drop, List.length_nil] at this
    omega
  have split := List.dropLast_concat_getLast someBehind
  have length := congrArg List.length split
  rw [List.length_append, List.length_drop, List.length_singleton] at length
  rcases run_end size (buf.drop word.length).dropLast ((buf.drop word.length).getLast someBehind)
    word plain.1 (by omega) with ⟨final, after, ran, isAfter⟩
  have start := fdgets_plain plain fits (by omega) []
  rw [List.append_nil, drop_set_zero positive, ← split, ran] at start
  refine ⟨after, ?_⟩
  rw [fdgets_eq, start]
  exact congrArg (LineState.mk _ · _) isAfter

theorem fdgets_nil (size : Nat) (buf : List Byte) : (fdgets size buf []).len = 0 := by
  have cleared : (buf.set 0 0).getD 0 0 = 0 := by
    cases buf <;> rfl
  rw [fdgets_eq]
  dsimp only
  by_cases room : 0 < size - 1
  · have turned : (fdgetsLoop size).body { len := 0, buf := buf.set 0 0, content := [] } =
        .finish { len := 0, buf := (buf.set 0 0).set 0 0, content := [] } := by
      simp only [fdgetsLoop, read_nil]
      exact (if_pos room).trans (if_pos cleared)
    rw [(fdgetsLoop size).run_of_finish turned]
  · have turned : (fdgetsLoop size).body { len := 0, buf := buf.set 0 0, content := [] } =
        .finish { len := 0, buf := buf.set 0 0, content := [] } := by
      simp only [fdgetsLoop, read_nil]
      exact if_neg room
    rw [(fdgetsLoop size).run_of_finish turned]

end Calls

/-! ## All calls -/

theorem read_content_length (state : LineState) :
    state.read.content.length = state.content.length - 1 := by
  rcases state with ⟨len, buf, content⟩
  cases content <;> rfl

theorem run_content_length (size : Nat) (state : LineState) :
    ((fdgetsLoop size).run state).content.length ≤ state.content.length - 1 := by
  induction state using (fdgetsLoop size).run_induction with
  | finish state result turned =>
      rw [(fdgetsLoop size).run_of_finish turned, ← read_content_length]
      simp only [fdgetsLoop] at turned
      split at turned
      · split at turned
        · cases turned
          exact Nat.le_refl _
        · split at turned
          · cases turned
            exact Nat.le_refl _
          · cases turned
      · cases turned
        exact Nat.le_refl _
  | again state next turned induction =>
      rw [(fdgetsLoop size).run_of_again turned]
      simp only [fdgetsLoop] at turned
      split at turned
      · split at turned
        · cases turned
        · split at turned
          · cases turned
          · cases turned
            have := read_content_length state
            dsimp only at induction
            omega
      · cases turned

structure Reading where
  buf : List Byte
  content : List Byte
  results : List (Nat × CString)

/-- `while (fdgets(buf, size, fd))` -/
def readAllLoop (size : Nat) : Loop Reading (List (Nat × CString)) where
  body := fun reading =>
    let state := fdgets size reading.buf reading.content
    if state.len = 0 then .finish reading.results
    else
      .again
        { buf := state.buf
          content := state.content
          results := reading.results ++ [(state.len, stringAt state.buf 0)] }
  rank := fun reading => reading.content.length
  decreases := by
    rintro ⟨buf, content, results⟩ next turned
    dsimp only at turned ⊢
    split at turned
    · cases turned
    · rename_i someResult
      cases turned
      have less := run_content_length size { len := 0, buf := buf.set 0 0, content }
      cases content with
      | nil => exact absurd (fdgets_nil size buf) someResult
      | cons byte rest =>
          rw [List.length_cons, Nat.add_sub_cancel] at less
          exact Nat.lt_succ_of_le less

/-- The results, each with the string that is stored, until one is 0. -/
def readAll (size : Nat) (buf content : List Byte) : List (Nat × CString) :=
  (readAllLoop size).run { buf, content, results := [] }

section Results

variable {size : Nat} {buf content word : List Byte} {results : List (Nat × CString)}

theorem readAllLoop_stop (stops : (fdgets size buf content).len = 0) (results) :
    (readAllLoop size).run { buf, content, results } = results :=
  (readAllLoop size).run_of_finish (if_pos stops)

theorem readAllLoop_next (goesOn : (fdgets size buf content).len ≠ 0) (results) :
    (readAllLoop size).run { buf, content, results } =
      (readAllLoop size).run
        { buf := (fdgets size buf content).buf
          content := (fdgets size buf content).content
          results := results ++
            [((fdgets size buf content).len, stringAt (fdgets size buf content).buf 0)] } :=
  (readAllLoop size).run_of_again (if_neg goesOn)

theorem readAllLoop_run (size : Nat) (reading : Reading) : ∀ results,
    (readAllLoop size).run { reading with results } =
      results ++ readAll size reading.buf reading.content := by
  induction reading using (readAllLoop size).run_induction with
  | finish reading result turned =>
      intro results
      by_cases stops : (fdgets size reading.buf reading.content).len = 0
      · rw [readAllLoop_stop stops, readAll, readAllLoop_stop stops, List.append_nil]
      · cases (if_neg stops).symm.trans turned
  | again reading next turned induction =>
      intro results
      by_cases stops : (fdgets size reading.buf reading.content).len = 0
      · cases (if_pos stops).symm.trans turned
      · cases (if_neg stops).symm.trans turned
        rw [readAllLoop_next stops, readAll, readAllLoop_next stops, induction, induction,
          List.append_assoc]
        rfl

theorem readAll_nil (size : Nat) (buf : List Byte) : readAll size buf [] = [] :=
  readAllLoop_stop (fdgets_nil size buf) []

theorem readAll_of_fdgets {len : Nat} {after rest : List Byte}
    (ran : fdgets size buf content = { len, buf := after, content := rest }) (positive : 0 < len) :
    readAll size buf content = (len, stringAt after 0) :: readAll size after rest := by
  have goesOn : (fdgets size buf content).len ≠ 0 := by
    rw [ran]
    exact Nat.ne_of_gt positive
  rw [readAll, readAllLoop_next goesOn, ran]
  exact readAllLoop_run size { buf := after, content := rest, results := [] } _

theorem stringAt_append_nul {text : CString} (clean : 0 ∉ text) (rest : List Byte) :
    stringAt (text ++ 0 :: rest) 0 = text :=
  (HasString.of_drop clean rfl).stringAt_eq

theorem stored_eq (size : Nat) (buf : List Byte) {text : List Byte} (room : text.length < size) :
    ∃ after, stored size buf text = text ++ 0 :: after :=
  set_behind text (buf.drop (text.length + 1)) (size - 1) (by omega)

theorem readAll_line (plain : Plain word) (fits : buf.length = size) (room : word.length + 1 < size)
    (rest : List Byte) :
    readAll size buf (word ++ newline :: rest) =
      (word.length + 1, word ++ [newline]) ::
        readAll size (stored size buf (word ++ [newline])) rest := by
  rw [readAll_of_fdgets (fdgets_line plain fits room rest) (Nat.succ_pos _)]
  have roomLine : (word ++ [newline]).length < size := by simpa using room
  rcases stored_eq size buf roomLine with ⟨after, isAfter⟩
  have clean : 0 ∉ word ++ [newline] := by
    simpa [plain.1] using (by decide : (0 : Byte) ≠ newline)
  rw [isAfter, stringAt_append_nul clean]

theorem readAll_full (plain : Plain word) (fits : buf.length = size) (full : word.length + 1 = size)
    (someWord : word ≠ []) (rest : List Byte) :
    readAll size buf (word ++ rest) =
      (word.length, word) :: readAll size (word ++ [0]) rest.tail := by
  rw [readAll_of_fdgets (fdgets_full plain fits full rest) (List.length_pos_of_ne_nil someWord),
    stringAt_append_nul plain.1]

theorem readAll_end (plain : Plain word) (someWord : word ≠ []) (fits : buf.length = size)
    (room : word.length + 1 < size) :
    readAll size buf word = [((endText buf word).length, endText buf word)] := by
  rcases fdgets_end plain someWord fits room with ⟨after, ran⟩
  have positive : 0 < (endText buf word).length := by
    have := List.length_pos_of_ne_nil someWord
    rw [endText, List.length_append]
    omega
  have clean : 0 ∉ endText buf word := by
    simp [endText, plain.1, nul_not_mem_invented]
  rw [readAll_of_fdgets ran positive, stringAt_append_nul clean, readAll_nil]

end Results

end SuBinary.Utils
