import SuBinary.Foundation.CString

/-! # Lines

The lines of a text, and what is behind the last newline.
-/

namespace SuBinary

def newline : Byte := 10

/-- The lines that a newline ends. -/
def lines (content : List Byte) : List CString := (content.splitOnP (· = newline)).dropLast

def lastLine (content : List Byte) : CString := (content.splitOnP (· = newline)).getLastD []

section Lines

variable {word : List Byte}

theorem splitOnP_plain (noEnd : newline ∉ word) : word.splitOnP (· = newline) = [word] := by
  apply List.splitOnP_eq_singleton
  intro byte member
  have other : byte ≠ newline := fun same => noEnd (same ▸ member)
  simpa using other

theorem splitOnP_newline (noEnd : newline ∉ word) (rest : List Byte) :
    (word ++ newline :: rest).splitOnP (· = newline) = word :: rest.splitOnP (· = newline) := by
  rw [List.splitOnP_append_cons word rest (by simp), splitOnP_plain noEnd]
  rfl

theorem lines_append (noEnd : newline ∉ word) (rest : List Byte) :
    lines (word ++ newline :: rest) = word :: lines rest := by
  rw [lines, splitOnP_newline noEnd, List.dropLast_cons_of_ne_nil (List.splitOnP_ne_nil _ _), lines]

theorem lastLine_append (noEnd : newline ∉ word) (rest : List Byte) :
    lastLine (word ++ newline :: rest) = lastLine rest := by
  have some := List.splitOnP_ne_nil (· = newline) rest
  rw [lastLine, splitOnP_newline noEnd, lastLine]
  cases pieces : rest.splitOnP (· = newline) with
  | nil => exact absurd pieces some
  | cons piece pieces => rfl

theorem lines_plain (noEnd : newline ∉ word) : lines word = [] := by
  rw [lines, splitOnP_plain noEnd]
  rfl

theorem lastLine_plain (noEnd : newline ∉ word) : lastLine word = word := by
  rw [lastLine, splitOnP_plain noEnd]
  rfl

theorem lastLine_of_getLast? {content : List Byte} (ends : content.getLast? = some newline) :
    lastLine content = [] := by
  rcases List.getLast?_eq_some_iff.mp ends with ⟨front, rfl⟩
  rw [lastLine, List.splitOnP_append_cons front [] (by simp), List.splitOnP_nil]
  simp

theorem lines_induction {motive : List Byte → Prop} (nil : motive [])
    (line : ∀ word rest, newline ∉ word → motive rest → motive (word ++ newline :: rest))
    (content : List Byte) (ended : lastLine content = []) : motive content := by
  induction isLength : content.length using Nat.strong_induction_on generalizing content with
  | _ length induction =>
      subst isLength
      by_cases noEnd : newline ∈ content
      · rcases List.eq_append_cons_of_mem noEnd with ⟨word, rest, rfl, noEndWord⟩
        rw [lastLine_append noEndWord] at ended
        exact line word rest noEndWord (induction rest.length (by simp; omega) rest ended rfl)
      · rw [lastLine_plain noEnd] at ended
        exact ended ▸ nil

end Lines

/-! ## `fgets` -/

/-- What it stores in a buffer of some size, and what is left. -/
def fgets : (size : Nat) → List Byte → CString × List Byte
  | size + 2, byte :: rest =>
      if byte = newline then ([byte], rest)
      else (byte :: (fgets (size + 1) rest).1, (fgets (size + 1) rest).2)
  | _, content => ([], content)

theorem fgets_line {word : List Byte} (noEnd : newline ∉ word) (rest : List Byte) {size : Nat}
    (fits : word.length + 1 < size) :
    fgets size (word ++ newline :: rest) = (word ++ [newline], rest) := by
  induction word generalizing size with
  | nil =>
      rcases Nat.exists_eq_add_of_le' (show 2 ≤ size from fits) with ⟨room, rfl⟩
      exact if_pos rfl
  | cons byte word induction =>
      rw [List.length_cons] at fits
      rcases Nat.exists_eq_add_of_le' (show 2 ≤ size by omega) with ⟨room, rfl⟩
      have notEnd : byte ≠ newline := fun same => noEnd (same ▸ List.mem_cons_self)
      have induction := induction (fun member => noEnd (List.mem_cons_of_mem _ member))
        (show word.length + 1 < room + 1 by omega)
      rw [List.cons_append, fgets, if_neg notEnd, induction, List.cons_append]

end SuBinary
