import SuBinary.Foundation.CString
import SuBinary.Foundation.Fault

/-! # File systems

What stands at each place of a tree of directories, and the system calls that read and change
it. A call that fails is a fault.
-/

namespace SuBinary.FileSystem

open SuBinary

/-! ## Trees -/

abbrev Name := CString

/-- The names from the root, the last one first. -/
abbrev Pathname := List Name

/-- `07777` -/
abbrev Mode := BitVec 12

structure Attr where
  mode : Mode
  uid : Nat
  gid : Nat
  context : CString
deriving DecidableEq

inductive Content
  | directory
  | regular (bytes : List Byte)
  | link (text : CString)
  | special
deriving DecidableEq

structure Node where
  content : Content
  attr : Attr
deriving DecidableEq

abbrev FileTree := AList fun _ : Pathname => Node

def contentAt (tree : FileTree) (path : Pathname) : Option Content :=
  (tree.lookup path).map Node.content

def childOf (dir : Pathname) : Pathname → Option Name
  | [] => none
  | name :: above => if above = dir then some name else none

/-- What `readdir` returns one by one, without the dots. -/
def entries (tree : FileTree) (dir : Pathname) : List Name := tree.keys.filterMap (childOf dir)

/-- What is anywhere is in a directory. -/
def WellFormed (tree : FileTree) : Prop :=
  ∀ name dir node, tree.lookup (name :: dir) = some node →
    contentAt tree dir = some .directory

/-- What depends on the kernel and on the caller: where a link leads in the end, and the
attributes of something new in a directory. -/
structure Kernel where
  follow : FileTree → Pathname → Option Pathname
  newAttr : (parent : Attr) → Content → Mode → Attr
  /-- What is found without some node is found with it as well. -/
  follow_erase : ∀ tree gone link place,
    follow (tree.erase gone) link = some place → follow tree link = some place

abbrev FileM := FaultM FileTree

namespace Kernel

variable (kernel : Kernel)

/-- Where a path leads when every link is followed. -/
def reach (tree : FileTree) : Pathname → Option Pathname
  | [] => some []
  | name :: dir =>
      match reach tree dir with
      | none => none
      | some place =>
          match contentAt tree (name :: place) with
          | none => none
          | some (.link _) => kernel.follow tree (name :: place)
          | some _ => some (name :: place)

/-- Where a path leads when its last name is not followed. There need not be anything. -/
def locate (tree : FileTree) : Pathname → Option Pathname
  | [] => some []
  | name :: dir =>
      match kernel.reach tree dir with
      | none => none
      | some place =>
          if contentAt tree place = some .directory then some (name :: place) else none

/-! ## System calls -/

def find (path : Pathname) : FileM Pathname := fun tree =>
  (kernel.locate tree path).map fun place => (place, tree)

def resolve (path : Pathname) : FileM Pathname := fun tree =>
  (kernel.reach tree path).map fun place => (place, tree)

def setNode (place : Pathname) (change : Node → Node) : FileM Unit := fun tree =>
  (tree.lookup place).map fun node => ((), tree.insert place (change node))

def setAttr (place : Pathname) (change : Attr → Attr) : FileM Unit :=
  setNode place fun node => { node with attr := change node.attr }

def make (place : Pathname) (content : Content) (mode : Mode) : FileM Unit := fun tree =>
  match place with
  | [] => none
  | name :: dir =>
      match tree.lookup (name :: dir), tree.lookup dir with
      | none, some parent =>
          let node := { content, attr := kernel.newAttr parent.attr content mode }
          some ((), tree.insert (name :: dir) node)
      | _, _ => none

/-- `open` with `O_CREAT`, of what does not exist. -/
def create (path : Pathname) (mode : Mode) : FileM Pathname := do
  let place ← kernel.find path
  kernel.make place (.regular []) mode
  return place

def sendfileMax : Nat := 0x7ffff000

end Kernel

/-! ## Frames -/

/-- Two trees that differ at one place at most. -/
structure Frame (place : Pathname) (tree next : FileTree) : Prop where
  lookup : ∀ other, other ≠ place → next.lookup other = tree.lookup other
  entries : ∀ dir, place.tail ≠ dir → entries next dir = entries tree dir

namespace Frame

variable {place : Pathname} {tree middle next : FileTree}

theorem refl (place : Pathname) (tree : FileTree) : Frame place tree tree where
  lookup := fun _ _ => rfl
  entries := fun _ _ => rfl

theorem trans (first : Frame place tree middle) (second : Frame place middle next) :
    Frame place tree next where
  lookup := fun other ne => (second.lookup other ne).trans (first.lookup other ne)
  entries := fun dir ne => (second.entries dir ne).trans (first.entries dir ne)

theorem contentAt (frame : Frame place tree next) {other : Pathname} (ne : other ≠ place) :
    FileSystem.contentAt next other = FileSystem.contentAt tree other := by
  rw [FileSystem.contentAt, frame.lookup other ne, FileSystem.contentAt]

end Frame

theorem childOf_of_ne {place dir : Pathname} (ne : place.tail ≠ dir) : childOf dir place = none := by
  cases place with
  | nil => rfl
  | cons name above => exact if_neg ne

theorem filterMap_erase {Key Value : Type} [DecidableEq Key] {choose : Key → Option Value}
    {gone : Key} (unchosen : choose gone = none) (keys : List Key) :
    (keys.erase gone).filterMap choose = keys.filterMap choose := by
  induction keys with
  | nil => rfl
  | cons key keys induction =>
      by_cases same : key = gone
      · subst same
        rw [List.erase_cons_head, List.filterMap_cons_none unchosen]
      · rw [List.erase_cons_tail (by simpa using same), List.filterMap_cons, List.filterMap_cons,
          induction]

theorem frame_insert (place : Pathname) (node : Node) (tree : FileTree) :
    Frame place tree (tree.insert place node) where
  lookup := fun _ ne => AList.lookup_insert_ne ne
  entries := by
    intro dir ne
    rw [entries, AList.keys_insert, List.filterMap_cons_none (childOf_of_ne ne),
      filterMap_erase (childOf_of_ne ne), entries]

/-- Two trees that differ at one place, and in attributes at some more. -/
structure FrameUpTo (quiet : Pathname → Prop) (place : Pathname) (tree next : FileTree) :
    Prop where
  lookup : ∀ other, other ≠ place → ¬quiet other → next.lookup other = tree.lookup other
  contentAt : ∀ other, other ≠ place → contentAt next other = contentAt tree other
  entries : ∀ dir, place.tail ≠ dir → (∀ other, quiet other → other.tail ≠ dir) →
    entries next dir = entries tree dir

theorem FrameUpTo.trans {quiet : Pathname → Prop} {place : Pathname}
    {tree middle next : FileTree} (first : FrameUpTo quiet place tree middle)
    (second : FrameUpTo quiet place middle next) : FrameUpTo quiet place tree next where
  lookup := fun other ne loud =>
    (second.lookup other ne loud).trans (first.lookup other ne loud)
  contentAt := fun other ne => (second.contentAt other ne).trans (first.contentAt other ne)
  entries := fun dir ne apart => (second.entries dir ne apart).trans (first.entries dir ne apart)

/-! ## The directories above -/

def Standing (tree : FileTree) (dir : Pathname) : Prop :=
  ∀ above, above <:+ dir → contentAt tree above = some .directory

theorem WellFormed.standing {tree : FileTree} (wellFormed : WellFormed tree) :
    ∀ {dir : Pathname} {name : Name} {node : Node}, tree.lookup (name :: dir) = some node →
      Standing tree dir
  | [], name, node, isNode => by
      intro above suffix
      rw [List.suffix_nil.mp suffix]
      exact wellFormed name [] node isNode
  | first :: dir, name, node, isNode => by
      have isDirectory := wellFormed name (first :: dir) node isNode
      rcases Option.map_eq_some_iff.mp isDirectory with ⟨above, isAbove, -⟩
      intro place suffix
      rcases List.suffix_cons_iff.mp suffix with rfl | suffix
      · exact isDirectory
      · exact wellFormed.standing isAbove place suffix

section Calls

variable {kernel : Kernel} {tree next : FileTree} {name : Name} {dir place : Pathname}

theorem Standing.self (standing : Standing tree dir) : contentAt tree dir = some .directory :=
  standing dir (List.suffix_refl dir)

theorem Standing.above (standing : Standing tree (name :: dir)) : Standing tree dir :=
  fun above suffix => standing above (suffix.trans (List.suffix_cons name dir))

theorem Standing.cons (standing : Standing tree dir)
    (isDirectory : contentAt tree (name :: dir) = some .directory) :
    Standing tree (name :: dir) := by
  intro above suffix
  rcases List.suffix_cons_iff.mp suffix with rfl | suffix
  · exact isDirectory
  · exact standing above suffix

theorem Standing.frame_apart (standing : Standing tree dir) (frame : Frame place tree next)
    (apart : ¬place <:+ dir) : Standing next dir := by
  intro above suffix
  have ne : above ≠ place := by
    rintro rfl
    exact apart suffix
  rw [frame.contentAt ne]
  exact standing above suffix

theorem Standing.frame (standing : Standing tree dir) (frame : Frame (name :: dir) tree next) :
    Standing next dir :=
  standing.frame_apart frame fun suffix => absurd suffix.length_le (by simp)

theorem Standing.reach (standing : Standing tree dir) : kernel.reach tree dir = some dir := by
  induction dir with
  | nil => rfl
  | cons name dir induction =>
      rw [Kernel.reach, induction standing.above]
      dsimp only
      rw [standing.self]

theorem Standing.locate (standing : Standing tree dir) (name : Name) :
    kernel.locate tree (name :: dir) = some (name :: dir) := by
  rw [Kernel.locate, standing.reach]
  exact if_pos standing.self

theorem Standing.reach_plain (standing : Standing tree dir) {content : Content}
    (isContent : contentAt tree (name :: dir) = some content) (plain : ∀ text, content ≠ .link text) :
    kernel.reach tree (name :: dir) = some (name :: dir) := by
  rw [Kernel.reach, standing.reach]
  dsimp only
  rw [isContent]
  cases content with
  | link text => exact absurd rfl (plain text)
  | directory => rfl
  | regular bytes => rfl
  | special => rfl

theorem Standing.find (standing : Standing tree dir) (name : Name) :
    kernel.find (name :: dir) tree = some (name :: dir, tree) := by
  rw [Kernel.find, standing.locate]
  rfl

theorem Standing.resolve (standing : Standing tree dir) {content : Content}
    (isContent : contentAt tree (name :: dir) = some content)
    (plain : ∀ text, content ≠ .link text) :
    kernel.resolve (name :: dir) tree = some (name :: dir, tree) := by
  rw [Kernel.resolve, standing.reach_plain isContent plain]
  rfl

theorem setNode_some {change : Node → Node} {value : Unit}
    (ran : Kernel.setNode place change tree = some (value, next)) :
    ∃ node, tree.lookup place = some node ∧ next = tree.insert place (change node) := by
  rw [Kernel.setNode, Option.map_eq_some_iff] at ran
  rcases ran with ⟨node, isNode, same⟩
  cases same
  exact ⟨node, isNode, rfl⟩

theorem setAttr_contentAt {change : Attr → Attr} {value : Unit}
    (ran : Kernel.setAttr place change tree = some (value, next)) (other : Pathname) :
    contentAt next other = contentAt tree other := by
  rcases setNode_some ran with ⟨node, isNode, rfl⟩
  by_cases same : other = place
  · subst same
    rw [contentAt, AList.lookup_insert, contentAt, isNode]
    rfl
  · exact (frame_insert place _ tree).contentAt same

theorem Standing.setAttr (standing : Standing tree dir) {change : Attr → Attr} {value : Unit}
    (ran : Kernel.setAttr place change tree = some (value, next)) : Standing next dir := by
  intro above suffix
  rw [setAttr_contentAt ran]
  exact standing above suffix

theorem make_sets {content : Content} {mode : Mode} {parent : Node} {value : Unit}
    (isParent : tree.lookup dir = some parent)
    (ran : kernel.make (name :: dir) content mode tree = some (value, next)) :
    tree.lookup (name :: dir) = none ∧ Frame (name :: dir) tree next ∧
      next.lookup (name :: dir) =
        some { content, attr := kernel.newAttr parent.attr content mode } := by
  rw [Kernel.make] at ran
  split at ran
  · rename_i found nothing isFound
    cases isParent.symm.trans isFound
    cases ran
    exact ⟨nothing, frame_insert _ _ _, AList.lookup_insert _⟩
  · cases ran

theorem Standing.create (standing : Standing tree dir) {mode : Mode} {parent : Node}
    {descriptor : Pathname} (isParent : tree.lookup dir = some parent)
    (ran : kernel.create (name :: dir) mode tree = some (descriptor, next)) :
    descriptor = name :: dir ∧ tree.lookup (name :: dir) = none ∧ Frame (name :: dir) tree next ∧
      next.lookup (name :: dir) =
        some { content := .regular [], attr := kernel.newAttr parent.attr (.regular []) mode } := by
  rw [Kernel.create, FaultM.run_bind (standing.find name)] at ran
  rcases FaultM.bind_some.mp ran with ⟨_, middle, made, ran⟩
  cases FaultM.pure_some.mp ran
  exact ⟨rfl, make_sets isParent made⟩

end Calls

end SuBinary.FileSystem
