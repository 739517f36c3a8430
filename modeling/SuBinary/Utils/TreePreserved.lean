import SuBinary.Utils.CopyGrowth
import SuBinary.Utils.TreeCopy

/-! # When a copy is like its source

The attributes of a directory and of a link are read from the target, so the copy has those of
the source only where the target had them already.
-/

namespace SuBinary.Utils

open SuBinary FileSystem

/-! ## What is expected of a copy -/

structure Faithful (node copy : Node) : Prop where
  content : copy.content = node.content
  mode : (∀ text, node.content ≠ .link text) →
    copy.attr.mode &&& accessBits = node.attr.mode &&& accessBits
  uid : copy.attr.uid = node.attr.uid
  gid : copy.attr.gid = node.attr.gid
  context : copy.attr.context = node.attr.context

/-- Below a non-directory that something from the source has replaced. -/
def BelowReplaced (tree : FileTree) (source target path : Pathname) : Prop :=
  ∃ above, above <:+ path ∧ Blocked tree (above ++ target) ∧
    ∃ node, tree.lookup (above ++ source) = some node

structure Preserves (tree after : FileTree) (source target : Pathname) : Prop where
  copied : ∀ path node, tree.lookup (path ++ source) = some node →
    ∃ copy, after.lookup (path ++ target) = some copy ∧ Faithful node copy
  unchanged : ∀ path, tree.lookup (path ++ source) = none →
    ¬BelowReplaced tree source target path →
    after.lookup (path ++ target) = tree.lookup (path ++ target)

/-! ## When it is met -/

def SameOwner (attr other : Attr) : Prop := attr.uid = other.uid ∧ attr.gid = other.gid

/-- What the target has at a path, or what comes there, fits the node of the source. -/
def Fits (kernel : Kernel) (tree : FileTree) (target : Pathname) (parent : Attr)
    (path : Pathname) (node : Node) : Prop :=
  match node.content with
  | .directory =>
      ∃ own, Origin kernel tree target parent path own ∧ SameOwner own node.attr ∧
        own.mode &&& accessBits = node.attr.mode &&& accessBits
  | .regular bytes => bytes.length ≤ Kernel.sendfileMax
  | .link text => SameOwner (kernel.newAttr parent (.link text) 0o777) node.attr
  | .special => False

structure FitsThroughout (kernel : Kernel) (tree : FileTree) (source target : Pathname) :
    Prop where
  root : ∀ node parent, tree.lookup source = some node →
    tree.lookup target.tail = some { content := .directory, attr := parent } →
    Fits kernel tree target parent [] node
  below : ∀ name path node above, tree.lookup (name :: path ++ source) = some node →
    tree.lookup (path ++ source) = some above →
    Fits kernel tree target (clonedAttr above.attr) (name :: path) node

section Preservation

variable {kernel : Kernel} {openMode : Mode} {tree now after : FileTree}
  {source target path : Pathname} {parent : Attr} {node : Node}

theorem accessBits_twice (mode : Mode) :
    mode &&& accessBits &&& accessBits = mode &&& accessBits := by
  rw [BitVec.and_assoc, BitVec.and_self]

theorem Origin.eq {own other : Attr} (origin : Origin kernel tree target parent path own)
    (originToo : Origin kernel tree target parent path other) : own = other := by
  rcases origin with isThere | ⟨nothing, rfl⟩
  · rcases originToo with isThereToo | ⟨nothing, -⟩
    · cases isThere.symm.trans isThereToo
      rfl
    · cases isThere.symm.trans nothing
  · rcases originToo with isThere | ⟨-, rfl⟩
    · cases nothing.symm.trans isThere
    · rfl

theorem take_all_iff (bytes : List Byte) :
    bytes.take (min bytes.length Kernel.sendfileMax) = bytes ↔
      bytes.length ≤ Kernel.sendfileMax := by
  rw [List.take_eq_self_iff]
  omega

theorem Copied.faithful_iff (copied : Copied kernel tree target parent now path node) :
    (∃ copy, now.lookup (path ++ target) = some copy ∧ Faithful node copy) ↔
      Fits kernel tree target parent path node := by
  rcases node with ⟨content, attr⟩
  cases content with
  | directory =>
      rcases copied with ⟨own, origin, isCopy⟩
      constructor
      · rintro ⟨copy, isThere, faithful⟩
        cases isCopy.symm.trans isThere
        refine ⟨own, origin, ⟨faithful.uid, faithful.gid⟩, ?_⟩
        rw [← faithful.mode nofun]
        exact (accessBits_twice own.mode).symm
      · rintro ⟨other, originToo, owner, mode⟩
        cases origin.eq originToo
        refine ⟨_, isCopy, rfl, fun _ => ?_, owner.1, owner.2, rfl⟩
        exact (accessBits_twice own.mode).trans mode
  | regular bytes =>
      constructor
      · rintro ⟨copy, isThere, faithful⟩
        cases copied.symm.trans isThere
        exact (take_all_iff bytes).mp (Content.regular.inj faithful.content)
      · intro short
        refine ⟨_, copied, ?_, fun _ => accessBits_twice attr.mode, rfl, rfl, rfl⟩
        exact congrArg Content.regular ((take_all_iff bytes).mpr short)
  | link text =>
      constructor
      · rintro ⟨copy, isThere, faithful⟩
        cases copied.symm.trans isThere
        exact ⟨faithful.uid, faithful.gid⟩
      · intro owner
        exact ⟨_, copied, rfl, fun plain => absurd rfl (plain text), owner.1, owner.2, rfl⟩
  | special => exact copied.elim

theorem Copied.directory_attr {attr : Attr}
    (copied : Copied kernel tree target parent now path node)
    (isDirectory : node.content = .directory) (fits : Fits kernel tree target parent path node)
    (isThere : now.lookup (path ++ target) = some { content := .directory, attr }) :
    attr = clonedAttr node.attr := by
  rcases node with ⟨content, nodeAttr⟩
  cases isDirectory
  rcases copied with ⟨own, origin, isCopy⟩
  rcases fits with ⟨other, originToo, ⟨uid, gid⟩, mode⟩
  cases origin.eq originToo
  cases isCopy.symm.trans isThere
  rw [keptAttr, clonedAttr, mode, ← uid, ← gid]

theorem Subtree.copied (subtree : Subtree kernel tree source target parent [] now)
    (isNode : tree.lookup (path ++ source) = some node) :
    (path = [] ∧ Copied kernel tree target parent now path node) ∨
      ∃ name dir attr, path = name :: dir ∧
        now.lookup (dir ++ target) = some { content := .directory, attr } ∧
        Copied kernel tree target attr now path node := by
  cases path with
  | nil => exact Or.inl ⟨rfl, subtree.root node isNode⟩
  | cons name dir =>
      have below := subtree.below name dir node
      rw [List.append_nil] at below
      rcases below isNode with ⟨attr, isParent, copied⟩
      exact Or.inr ⟨name, dir, attr, rfl, isParent, copied⟩

theorem FitsThroughout.copied (apart : Apart tree source target)
    (fits : FitsThroughout kernel tree source target)
    (isParent : tree.lookup target.tail = some { content := .directory, attr := parent })
    (subtree : Subtree kernel tree source target parent [] now) :
    ∀ (path : Pathname) (node : Node), tree.lookup (path ++ source) = some node →
      ∃ attr, Copied kernel tree target attr now path node ∧
        Fits kernel tree target attr path node := by
  intro path
  induction path with
  | nil =>
      intro node isNode
      exact ⟨parent, subtree.root node isNode, fits.root node parent isNode isParent⟩
  | cons name dir induction =>
      intro node isNode
      rcases subtree.copied isNode with ⟨same, -⟩ | ⟨_, _, attr, same, isDirectory, copied⟩
      · cases same
      · cases same
        have standing := apart.wellFormed.standing isNode
        rcases lookup_of_contentAt standing.self with ⟨above, isAbove⟩
        rcases induction _ isAbove with ⟨_, copiedAbove, fitsAbove⟩
        have isAttr := copiedAbove.directory_attr rfl fitsAbove isDirectory
        subst isAttr
        exact ⟨_, copied, fits.below name dir node _ isNode isAbove⟩

theorem Preserves.fits (apart : Apart tree source target)
    (preserves : Preserves tree now source target)
    (isParent : tree.lookup target.tail = some { content := .directory, attr := parent })
    (subtree : Subtree kernel tree source target parent [] now) :
    FitsThroughout kernel tree source target where
  root := by
    intro node other isNode isOther
    cases isParent.symm.trans isOther
    exact (subtree.root node isNode).faithful_iff.mp (preserves.copied [] node isNode)
  below := by
    intro name dir node above isNode isAbove
    rcases subtree.copied isNode with ⟨same, -⟩ | ⟨_, _, attr, same, isDirectory, copied⟩
    · cases same
    · cases same
      have aboveDirectory : above.content = .directory := by
        have isContent := apart.wellFormed.standing isNode (dir ++ source) (List.suffix_refl _)
        rw [contentAt, isAbove] at isContent
        exact Option.some.inj isContent
      have isAttr : attr = clonedAttr above.attr := by
        have faithful := preserves.copied dir above isAbove
        rcases subtree.copied isAbove with ⟨-, copiedAbove⟩ | ⟨_, _, _, -, -, copiedAbove⟩
        · exact copiedAbove.directory_attr aboveDirectory (copiedAbove.faithful_iff.mp faithful)
            isDirectory
        · exact copiedAbove.directory_attr aboveDirectory (copiedAbove.faithful_iff.mp faithful)
            isDirectory
      rw [← isAttr]
      exact copied.faithful_iff.mp (preserves.copied (name :: dir) node isNode)

end Preservation

/-! ## A tree with one directory to copy -/

end SuBinary.Utils
