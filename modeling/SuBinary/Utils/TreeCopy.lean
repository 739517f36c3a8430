import SuBinary.Utils.CpAfc

/-! # What a copied tree is like

When the copy that `cp_afc` makes has the attributes of its source. The attributes of a regular
file are cloned from the source, those of a directory and of a link are the target's own.
-/

namespace SuBinary.Utils

open SuBinary FileSystem

/-! ## Two trees -/

/-- A source of directories, files and links, and a target that is neither in it nor around it. -/
structure Apart (tree : FileTree) (source target : Pathname) : Prop where
  wellFormed : FileSystem.WellFormed tree
  notBelow : ¬source <:+ target
  notAbove : ¬target <:+ source
  above : Standing tree target.tail
  kinds : ∀ path, contentAt tree (path ++ source) ≠ some .special

section Copy

variable {kernel : Kernel} {openMode : Mode} {tree : FileTree} {source target : Pathname}

theorem Apart.ne (apart : Apart tree source target) (path other : Pathname) :
    path ++ source ≠ other ++ target := by
  intro same
  rcases List.suffix_or_suffix_of_suffix (List.suffix_append path source)
    (same ▸ List.suffix_append other target) with below | above
  · exact apart.notBelow below
  · exact apart.notAbove above

theorem Apart.not_suffix (apart : Apart tree source target) (path : Pathname) :
    ¬target <:+ path ++ source := by
  rintro ⟨other, same⟩
  exact apart.ne path other same.symm

/-- The tree while the copy is made: the source is as it was, and besides the target nothing
has come or gone. -/
structure Stage (tree : FileTree) (source target : Pathname) (now : FileTree) : Prop where
  lookup : ∀ path, now.lookup (path ++ source) = tree.lookup (path ++ source)
  entries : ∀ path, entries now (path ++ source) = entries tree (path ++ source)
  beside : ∀ place, ¬target <:+ place → contentAt now place = contentAt tree place

variable {now : FileTree}

theorem Stage.contentAt (stage : Stage tree source target now) (path : Pathname) :
    contentAt now (path ++ source) = contentAt tree (path ++ source) := by
  rw [FileSystem.contentAt, stage.lookup, FileSystem.contentAt]

theorem Stage.standing (apart : Apart tree source target) (stage : Stage tree source target now)
    {path : Pathname} {name : Name} {dir : Pathname} {node : Node}
    (isPlace : path ++ source = name :: dir) (isNode : tree.lookup (name :: dir) = some node) :
    Standing now dir := by
  intro above suffix
  have outside : ¬target <:+ above := fun below =>
    apart.not_suffix path
      (isPlace ▸ (below.trans suffix).trans (List.suffix_cons name dir))
  rw [stage.beside above outside]
  exact apart.wellFormed.standing isNode above suffix

/-! ## Copies -/

/-- The attributes of a directory before they are cloned, in a directory with other ones. -/
def Origin (kernel : Kernel) (tree : FileTree) (target : Pathname) (parent : Attr)
    (path : Pathname) (own : Attr) : Prop :=
  tree.lookup (path ++ target) = some { content := .directory, attr := own } ∨
    tree.lookup (path ++ target) = none ∧ own = kernel.newAttr parent .directory 0o755

/-- The copy of a node, in a directory with some attributes. -/
def Copied (kernel : Kernel) (tree : FileTree) (target : Pathname) (parent : Attr)
    (now : FileTree) (path : Pathname) (node : Node) : Prop :=
  match node.content with
  | .directory =>
      ∃ own, Origin kernel tree target parent path own ∧
        now.lookup (path ++ target) =
          some { content := .directory, attr := keptAttr own node.attr }
  | .regular bytes =>
      now.lookup (path ++ target) =
        some
          { content := .regular (bytes.take (min bytes.length Kernel.sendfileMax))
            attr := clonedAttr node.attr }
  | .link text =>
      now.lookup (path ++ target) =
        some
          { content := .link text
            attr :=
              { kernel.newAttr parent (.link text) 0o777 with context := node.attr.context } }
  | .special => False

structure Subtree (kernel : Kernel) (tree : FileTree) (source target : Pathname) (parent : Attr)
    (path : Pathname) (now : FileTree) : Prop where
  root : ∀ node, tree.lookup (path ++ source) = some node →
    Copied kernel tree target parent now path node
  below : ∀ name inner node, tree.lookup (name :: (inner ++ path) ++ source) = some node →
    ∃ attr, now.lookup (inner ++ path ++ target) = some { content := .directory, attr } ∧
      Copied kernel tree target attr now (name :: (inner ++ path)) node
  untouched : ∀ inner, tree.lookup (inner ++ path ++ source) = none →
    now.lookup (inner ++ path ++ target) = tree.lookup (inner ++ path ++ target)

theorem Copied.congr {parent : Attr} {now next : FileTree} {path : Pathname} {node : Node}
    (same : next.lookup (path ++ target) = now.lookup (path ++ target))
    (copied : Copied kernel tree target parent now path node) :
    Copied kernel tree target parent next path node := by
  rcases node with ⟨content, attr⟩
  cases content with
  | directory =>
      rcases copied with ⟨own, origin, isCopy⟩
      exact ⟨own, origin, same.trans isCopy⟩
  | regular bytes => exact same.trans copied
  | link text => exact same.trans copied
  | special => exact copied

theorem Subtree.congr {parent : Attr} {now next : FileTree} {path : Pathname}
    (same : ∀ inner, next.lookup (inner ++ path ++ target) = now.lookup (inner ++ path ++ target))
    (subtree : Subtree kernel tree source target parent path now) :
    Subtree kernel tree source target parent path next where
  root := fun node isNode => (subtree.root node isNode).congr (same [])
  below := by
    intro name inner node isNode
    rcases subtree.below name inner node isNode with ⟨attr, isParent, copied⟩
    exact ⟨attr, (same inner).trans isParent, copied.congr (same (name :: inner))⟩
  untouched := fun inner nothing => (same inner).trans (subtree.untouched inner nothing)

/-- What a call does to the tree before it. -/
structure Copies (kernel : Kernel) (tree : FileTree) (source target : Pathname) (parent : Attr)
    (path : Pathname) (before after : FileTree) : Prop where
  stage : Stage tree source target after
  frame : ∀ place, target <:+ place → ¬path ++ target <:+ place →
    after.lookup place = before.lookup place
  subtree : Subtree kernel tree source target parent path after

structure Ready (tree : FileTree) (source target : Pathname) (parent : Attr) (path : Pathname)
    (before : FileTree) : Prop where
  isSource : ∃ node, tree.lookup (path ++ source) = some node
  stage : Stage tree source target before
  standing : Standing before (path ++ target).tail
  isParent : before.lookup (path ++ target).tail = some { content := .directory, attr := parent }
  untouched : ∀ inner,
    before.lookup (inner ++ path ++ target) = tree.lookup (inner ++ path ++ target)

theorem not_suffix_self (name : Name) (dir : Pathname) : ¬name :: dir <:+ dir := by
  intro suffix
  exact absurd suffix.length_le (by simp)

theorem Copies.standing {parent : Attr} {name : Name} {path : Pathname} {before after : FileTree}
    (stage : Stage tree source target before) (standing : Standing before (path ++ target))
    (copies : Copies kernel tree source target parent (name :: path) before after) :
    Standing after (path ++ target) := by
  intro above suffix
  rw [← standing above suffix]
  by_cases below : target <:+ above
  · have notInside : ¬name :: path ++ target <:+ above := fun inside =>
      not_suffix_self name (path ++ target) (inside.trans suffix)
    rw [FileSystem.contentAt, copies.frame above below notInside, FileSystem.contentAt]
  · rw [copies.stage.beside above below, stage.beside above below]

end Copy

end SuBinary.Utils
