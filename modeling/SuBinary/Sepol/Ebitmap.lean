import SuBinary.Sepol.Policydb

/-! # Operations on bitmaps -/

namespace SuBinary.Sepol

open SuBinary

def ebitmapGetBit (e : Ebitmap) (bit : Nat) : Bool :=
  decide (bit ∈ e.bits)

def insertBit (bit : Nat) : List Nat → List Nat
  | [] => [bit]
  | first :: rest =>
      if bit < first then bit :: first :: rest
      else if bit = first then first :: rest
      else first :: insertBit bit rest

theorem mem_insertBit (bit other : Nat) (bits : List Nat) :
    other ∈ insertBit bit bits ↔ other = bit ∨ other ∈ bits := by
  fun_induction insertBit bit bits with
  | case1 => simp
  | case2 first rest before => simp
  | case3 rest _ => simp
  | case4 first rest _ _ induction =>
      rw [List.mem_cons, induction, List.mem_cons]
      tauto

theorem insertBit_ascending (bit : Nat) {bits : List Nat} (ascending : bits.Pairwise (· < ·)) :
    (insertBit bit bits).Pairwise (· < ·) := by
  fun_induction insertBit bit bits with
  | case1 => exact List.pairwise_singleton _ _
  | case2 first rest before =>
      refine List.pairwise_cons.mpr ⟨fun other member => ?_, ascending⟩
      rcases List.mem_cons.mp member with rfl | later
      · exact before
      · exact before.trans ((List.pairwise_cons.mp ascending).1 other later)
  | case3 rest _ => exact ascending
  | case4 first rest notBefore notSame induction =>
      rcases List.pairwise_cons.mp ascending with ⟨smallest, rest⟩
      refine List.pairwise_cons.mpr ⟨fun other member => ?_, induction rest⟩
      rcases (mem_insertBit bit other _).mp member with rfl | later
      · omega
      · exact smallest other later

/-- Set or clear a bit; allocation succeeds, and the bit is not one of the last
64 below `2 ^ 32`, for which the source reports an overflow. -/
def ebitmapSetBit (e : Ebitmap) (bit : Nat) (value : Bool) : Ebitmap :=
  if value then
    { bits := insertBit bit e.bits
      ascending := insertBit_ascending bit e.ascending }
  else
    { bits := e.bits.filter (· ≠ bit)
      ascending := e.ascending.filter _ }

@[simp] theorem Ebitmap.not_mem_empty (bit : Nat) : bit ∉ Ebitmap.empty.bits :=
  List.not_mem_nil

theorem mem_ebitmapSetBit (e : Ebitmap) (bit : Nat) (value : Bool) (other : Nat) :
    other ∈ (ebitmapSetBit e bit value).bits ↔
      if other = bit then value = true else other ∈ e.bits := by
  cases value with
  | false => by_cases same : other = bit <;> simp [ebitmapSetBit, same]
  | true =>
      rw [ebitmapSetBit, if_pos rfl, mem_insertBit]
      by_cases same : other = bit <;> simp [same]

@[simp] theorem mem_ebitmapSetBit_true (e : Ebitmap) (bit other : Nat) :
    other ∈ (ebitmapSetBit e bit true).bits ↔ other = bit ∨ other ∈ e.bits := by
  rw [mem_ebitmapSetBit]
  by_cases same : other = bit <;> simp [same]

theorem Ebitmap.ext_mem {first second : Ebitmap}
    (sameBits : ∀ bit, bit ∈ first.bits ↔ bit ∈ second.bits) : first = second := by
  have permuted : first.bits.Perm second.bits :=
    (List.perm_ext_iff_of_nodup first.ascending.nodup second.ascending.nodup).mpr sameBits
  have same : first.bits = second.bits :=
    permuted.eq_of_pairwise (fun _ _ _ _ before after => absurd before (Nat.lt_asymm after))
      first.ascending second.ascending
  cases first
  cases second
  simpa using same

/-! ## Arrays of bitmaps -/

def setRowBit (rows : List Ebitmap) (row bit : Nat) : List Ebitmap :=
  rows.modify row fun e => ebitmapSetBit e bit true

def HasRowBit (rows : List Ebitmap) (row bit : Nat) : Prop :=
  ∃ e, rows[row]? = some e ∧ bit ∈ e.bits

@[simp] theorem length_setRowBit (rows : List Ebitmap) (row bit : Nat) :
    (setRowBit rows row bit).length = rows.length := by
  simp [setRowBit]

theorem hasRowBit_setRowBit (rows : List Ebitmap) (row bit other otherBit : Nat) :
    HasRowBit (setRowBit rows row bit) other otherBit ↔
      (row < rows.length ∧ other = row ∧ otherBit = bit) ∨ HasRowBit rows other otherBit := by
  simp only [HasRowBit, setRowBit, List.getElem?_modify]
  by_cases same : row = other
  · subst same
    by_cases inside : row < rows.length
    · simp [inside]
    · simp [inside]
  · simp [same, Ne.symm same]

theorem hasRowBit_setRowBit_of_lt {rows : List Ebitmap} {row : Nat} (inside : row < rows.length)
    (bit other otherBit : Nat) :
    HasRowBit (setRowBit rows row bit) other otherBit ↔
      HasRowBit rows other otherBit ∨ (other = row ∧ otherBit = bit) := by
  rw [hasRowBit_setRowBit, or_comm]
  simp only [inside, true_and]

theorem rows_ext {first second : List Ebitmap} (sameLength : first.length = second.length)
    (sameBits : ∀ row bit, HasRowBit first row bit ↔ HasRowBit second row bit) :
    first = second := by
  apply List.ext_getElem sameLength
  intro row inFirst inSecond
  apply Ebitmap.ext_mem
  intro bit
  simpa [HasRowBit, List.getElem?_eq_getElem inFirst, List.getElem?_eq_getElem inSecond]
    using sameBits row bit

end SuBinary.Sepol
