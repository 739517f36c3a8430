import SuBinary.Foundation.FileSystem

/-! # Copying a tree

`cp_afc` of `misc.c` with the two functions that clone the attributes of a node.
-/

namespace SuBinary.Utils

open SuBinary FileSystem

variable (kernel : Kernel)

def accessBits : Mode := 0o777

section Parts

variable {kernel} {tree next : FileTree} {name : Name} {dir : Pathname}

theorem lookup_of_contentAt {content : Content} (isContent : contentAt tree dir = some content) :
    ∃ attr, tree.lookup dir = some { content, attr } := by
  rcases Option.map_eq_some_iff.mp isContent with ⟨node, isNode, rfl⟩
  exact ⟨node.attr, isNode⟩

def keptAttr (own source : Attr) : Attr :=
  { own with mode := own.mode &&& accessBits, context := source.context }

def clonedAttr (source : Attr) : Attr := { source with mode := source.mode &&& accessBits }

variable {openMode : Mode} {sname : Name} {sdir : Pathname} {attr : Attr} {parent : Node}
  {value : Nat}

end Parts

end SuBinary.Utils
