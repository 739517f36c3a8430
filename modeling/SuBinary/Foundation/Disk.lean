import SuBinary.Foundation.CString

/-! # Files

Files have names and contents. A file is opened without being emptied, so that a
write replaces only the bytes that it covers.
-/

namespace SuBinary

variable {File : Type}

structure Disk (File : Type) where
  resolve : CString → File
  content : File → Option (List Byte)

def overwrite (old bytes : List Byte) : List Byte := bytes ++ old.drop bytes.length

theorem overwrite_eq_iff {old bytes : List Byte} :
    overwrite old bytes = bytes ↔ old.length ≤ bytes.length := by
  rw [overwrite, List.append_right_eq_self, List.drop_eq_nil_iff]

/-- The bytes of a file, of which a file that is not there has none. -/
def Disk.bytes (disk : Disk File) (file : File) : List Byte := (disk.content file).getD []

variable [DecidableEq File]

/-- `write` to a file that was opened with `O_CREAT` and without `O_TRUNC`. -/
def Disk.write (disk : Disk File) (file : File) (bytes : List Byte) : Disk File :=
  { disk with
    content := Function.update disk.content file (some (overwrite (disk.bytes file) bytes)) }

@[simp] theorem Disk.write_content (disk : Disk File) (file : File) (bytes : List Byte) :
    (disk.write file bytes).content file = some (overwrite (disk.bytes file) bytes) :=
  Function.update_self ..

end SuBinary
