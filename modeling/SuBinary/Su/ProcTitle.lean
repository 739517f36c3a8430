import SuBinary.Foundation.PlacedString

/-! # The title of the process

`setproctitle.c`: the daemon writes its title over the memory of `argv` and of the
environment that lies behind it, after the environment was copied away. Allocation
succeeds, at an address that is a parameter.
-/

namespace SuBinary.Su

open SuBinary PlacedString

/-- The loop of `cpystrn`, with one less of `n` than the caller gave. -/
def cpystrnLoop : Nat → Nat → Nat → MemM Nat
  | 0, dst, _ => do
      writeCell dst 0
      return dst
  | n + 1, dst, src => do
      let byte ← readCell src
      writeCell dst byte
      if byte = 0 then
        return dst
      else
        cpystrnLoop n (dst + 1) (src + 1)

/-- Copy at most `n` bytes, the last of which is NUL; the result is the address of this NUL. -/
def cpystrn (dst src n : Nat) : MemM Nat :=
  match n with
  | 0 => return dst
  | n + 1 => cpystrnLoop n dst src

/-- What stands in `os_argv`, `environ` and `os_argv_last`. The arrays of pointers are listed up
to their NULL. -/
structure ProcTitle where
  argv0 : Nat
  argvRest : List Nat
  environ : List Nat
  osArgvLast : Nat

/-- The first loop of `init_setproctitle`. -/
def environSize : List Nat → Nat → MemM Nat
  | [], size => return size
  | entry :: rest, size => do
      let length ← strlen entry
      environSize rest (size + (length + 1))

/-- The second loop: `os_argv_last` moves behind the words that follow each other. -/
def argvEnd : List Nat → Nat → MemM Nat
  | [], osArgvLast => return osArgvLast
  | arg :: rest, osArgvLast => do
      if osArgvLast = arg then
        let length ← strlen arg
        argvEnd rest (arg + length + 1)
      else
        argvEnd rest osArgvLast

/-- The third loop: entries of the environment that follow are copied to `p`. -/
def moveEnviron : List Nat → Nat → Nat → MemM (List Nat × Nat)
  | [], osArgvLast, _ => return ([], osArgvLast)
  | entry :: rest, osArgvLast, p => do
      if osArgvLast = entry then
        let length ← strlen entry
        let _ ← cpystrn p entry (length + 1)
        let (moved, osArgvLast) ← moveEnviron rest (entry + (length + 1)) (p + (length + 1))
        return (p :: moved, osArgvLast)
      else
        let (moved, osArgvLast) ← moveEnviron rest osArgvLast p
        return (entry :: moved, osArgvLast)

def initSetproctitle (calloc : Nat → Nat) (argv0 : Nat) (argvRest environ : List Nat) :
    MemM ProcTitle := do
  let size ← environSize environ 0
  let p := calloc size
  memset p 0 size
  let osArgvLast ← argvEnd (argv0 :: argvRest) argv0
  let (environ, osArgvLast) ← moveEnviron environ osArgvLast p
  return { argv0, argvRest, environ, osArgvLast := osArgvLast - 1 }

def setproctitle (process : ProcTitle) (title : Nat) : MemM ProcTitle := do
  let p ← cpystrn process.argv0 title (process.osArgvLast - process.argv0)
  if process.osArgvLast - p ≠ 0 then
    memset p 0 (process.osArgvLast - p)
  return { process with argvRest := [] }

/-! ## Copying -/

theorem cpystrnLoop_spec (n dst src : Nat) (memory : Memory) {text : CString}
    (present : HasString memory.cells src text) (inside : dst + n < memory.cells.length)
    (apart : src + text.length < dst ∨ dst + n < src) :
    ∃ after, cpystrnLoop n dst src memory = some (dst + (text.take n).length, after) ∧
      SameOutside dst (dst + n + 1) memory.cells after.cells ∧
      HasString after.cells dst (text.take n) := by
  -- What is read next lies apart from what is written next, so it is still the old text.
  induction n generalizing dst src text memory with
  | zero =>
      refine ⟨{ memory.touch dst 1 with cells := memory.cells.set dst 0 }, ?_,
        SameOutside.set _ _ _ (Nat.le_refl _) (Nat.lt_succ_self _), ?_⟩
      · have written : writeCell dst 0 memory =
            some ((), { memory.touch dst 1 with cells := memory.cells.set dst 0 }) :=
          writeCell_of_lt 0 inside
        rw [cpystrnLoop, FaultM.run_bind written]
        rfl
      · exact ⟨List.not_mem_nil, nofun, List.getElem?_set_self inside⟩
  | succ n induction =>
      have bound := present.bound
      have written (byte : Byte) : writeCell dst byte (memory.touch src 1) =
          some ((), { (memory.touch src 1).touch dst 1 with
            cells := memory.cells.set dst byte }) :=
        writeCell_of_lt byte (by rw [Memory.touch_cells]; omega)
      cases text with
      | nil =>
          have read : readCell src memory = some (0, memory.touch src 1) :=
            readCell_of_getElem? present.ends
          refine ⟨{ (memory.touch src 1).touch dst 1 with cells := memory.cells.set dst 0 }, ?_,
            SameOutside.set _ _ _ (Nat.le_refl _) (by omega), ?_⟩
          · rw [cpystrnLoop, FaultM.run_bind read, FaultM.run_bind (written 0)]
            rfl
          · exact ⟨List.not_mem_nil, nofun, List.getElem?_set_self (by omega)⟩
      | cons byte text =>
          rw [List.length_cons] at apart bound
          have isByte : memory.cells[src]? = some byte := present.bytes 0 (Nat.succ_pos _)
          have someByte : byte ≠ 0 := fun isNul => present.clean (isNul ▸ List.mem_cons_self)
          have read := readCell_of_getElem? isByte
          have first : SameOutside dst (dst + 1) memory.cells (memory.cells.set dst byte) :=
            SameOutside.set _ _ _ (Nat.le_refl _) (Nat.lt_succ_self _)
          have rest : HasString memory.cells (src + 1) text :=
            HasString.suffix (show HasString memory.cells src ([byte] ++ text) from present)
          have unread : HasString (memory.cells.set dst byte) (src + 1) text :=
            first.hasString (by omega) rest
          rcases induction (dst + 1) (src + 1)
            { (memory.touch src 1).touch dst 1 with cells := memory.cells.set dst byte }
            unread (by rw [first.size]; omega) (by omega) with ⟨after, ran, later, copied⟩
          refine ⟨after, ?_, (first.mono (Nat.le_refl _) (by omega)).trans
            (later.mono (by omega) (by omega)), ?_⟩
          · rw [cpystrnLoop, FaultM.run_bind read, FaultM.run_bind (written byte),
              if_neg someByte, List.take_succ_cons, List.length_cons]
            rw [Nat.add_right_comm, Nat.add_assoc] at ran
            exact ran
          · rw [List.take_succ_cons]
            apply HasString.cons _ someByte copied
            rw [later.outside dst (Or.inl (Nat.lt_succ_self _))]
            exact List.getElem?_set_self (by omega)

/-! ## The loops of `init_setproctitle` -/

theorem environSize_spec (entries : List PlacedString) (size : Nat) (memory : Memory)
    (present : ∀ entry, entry ∈ entries → entry.In memory.cells) :
    ∃ after, environSize (entries.map address) size memory = some (size + room entries, after) ∧
      after.cells = memory.cells := by
  induction entries generalizing size memory with
  | nil => exact ⟨memory, rfl, rfl⟩
  | cons entry rest induction =>
      have length := strlen_of_hasString (present entry List.mem_cons_self)
      rcases induction (size + (entry.text.length + 1))
        (memory.touch entry.address (entry.text.length + 1))
        (fun other member => present other (List.mem_cons_of_mem _ member)) with
        ⟨after, ran, same⟩
      refine ⟨after, ?_, same⟩
      rw [List.map_cons, environSize, FaultM.run_bind length, ran, room, Nat.add_assoc]

theorem argvEnd_spec (words : List PlacedString) (memory : Memory) {done : List PlacedString}
    {first last : Nat}
    (fill : Fill done first last) (present : ∀ word, word ∈ words → word.In memory.cells) :
    ∃ osArgvLast after, argvEnd (words.map address) last memory = some (osArgvLast, after) ∧
      after.cells = memory.cells ∧ Fill (done ++ words) first osArgvLast ∧ last ≤ osArgvLast := by
  induction words generalizing done last memory with
  | nil =>
      rw [List.append_nil]
      exact ⟨last, memory, rfl, rfl, fill, Nat.le_refl _⟩
  | cons word rest induction =>
      rw [List.append_cons]
      have wider : Fill (done ++ [word]) first last :=
        fill.mono fun string member => List.mem_append_left _ member
      by_cases follows : last = word.address
      · have length := strlen_of_hasString (present word List.mem_cons_self)
        have longer : Fill (done ++ [word]) first word.stop :=
          (follows ▸ wider).next (List.mem_append_right _ List.mem_cons_self)
        rcases induction (memory.touch word.address (word.text.length + 1)) longer
          (fun other member => present other (List.mem_cons_of_mem _ member)) with
          ⟨osArgvLast, after, ran, same, filled, further⟩
        refine ⟨osArgvLast, after, ?_, same, filled, ?_⟩
        · rw [List.map_cons, argvEnd, if_pos follows, FaultM.run_bind length]
          exact ran
        · rw [stop] at further
          omega
      · rcases induction memory wider
          (fun other member => present other (List.mem_cons_of_mem _ member)) with
          ⟨osArgvLast, after, ran, same, filled, further⟩
        refine ⟨osArgvLast, after, ?_, same, filled, further⟩
        rw [List.map_cons, argvEnd, if_neg follows]
        exact ran

def Free (p block : Nat) (strings : List PlacedString) : Prop :=
  ∀ string, string ∈ strings → string.Outside p (p + block)

theorem cpystrn_whole (p : Nat) (memory : Memory) {entry : PlacedString}
    (present : entry.In memory.cells) (inside : p + entry.text.length < memory.cells.length)
    (apart : entry.Outside p (p + (entry.text.length + 1))) :
    ∃ after, cpystrn p entry.address (entry.text.length + 1) memory =
        some (p + entry.text.length, after) ∧
      SameOutside p (p + entry.text.length + 1) memory.cells after.cells ∧
      HasString after.cells p entry.text := by
  have room : entry.address + entry.text.length < p ∨ p + entry.text.length < entry.address :=
    apart.imp (fun before => by rw [stop] at before; omega) (fun behind => by omega)
  have copied := cpystrnLoop_spec _ _ _ _ present inside room
  rw [List.take_length] at copied
  exact copied

theorem moveEnviron_spec (entries : List PlacedString) (p : Nat) (memory : Memory)
    {done : List PlacedString} {first last : Nat} (fill : Fill done first last)
    (notEmpty : first < last) (present : ∀ entry, entry ∈ entries → entry.In memory.cells)
    (apart : (done ++ entries).Pairwise Apart)
    (inside : p + room entries ≤ memory.cells.length)
    (free : Free p (room entries) (done ++ entries)) :
    ∃ (moved : List PlacedString) (osArgvLast : Nat) (after : Memory),
      moveEnviron (entries.map address) last p memory =
          some ((moved.map address, osArgvLast), after) ∧
        moved.map text = entries.map text ∧
        (∀ entry, entry ∈ moved → entry.In after.cells ∧ entry.Outside first osArgvLast) ∧
        Fill (done ++ entries) first osArgvLast ∧ last ≤ osArgvLast ∧
        SameOutside p (p + room entries) memory.cells after.cells := by
  induction entries generalizing done last p memory with
  | nil =>
      rw [List.append_nil]
      exact ⟨[], last, memory, rfl, rfl, nofun, fill, Nat.le_refl _, SameOutside.refl _ _ _⟩
  | cons entry rest induction =>
      rw [room] at inside free
      have isEntry : entry ∈ done ++ entry :: rest :=
        List.mem_append_right _ List.mem_cons_self
      have entryFree := free entry isEntry
      have isPresent := present entry List.mem_cons_self
      have fromEntry : ∀ string, string ∈ done ++ rest → string.Apart entry := by
        intro string member
        have parts := List.pairwise_append.mp apart
        rcases List.mem_append.mp member with before | behind
        · exact parts.2.2 string before entry List.mem_cons_self
        · exact ((List.pairwise_cons.mp parts.2.1).1 string behind).symm
      by_cases follows : last = entry.address
      · -- The entry belongs to the region from now on, and its copy takes its place.
        rcases cpystrn_whole p (memory.touch entry.address (entry.text.length + 1))
          isPresent (by rw [Memory.touch_cells]; omega)
          (entryFree.mono (Nat.le_refl _) (by omega)) with ⟨middle, copies, changed, copied⟩
        have wider : Fill (done ++ [entry]) first entry.stop :=
          (follows ▸ fill.mono fun string member => List.mem_append_left _ member).next
            (List.mem_append_right _ List.mem_cons_self)
        have still : ∀ other, other ∈ rest → other.In middle.cells := by
          intro other member
          have otherFree := free other
            (List.mem_append_right _ (List.mem_cons_of_mem _ member))
          exact (present other (List.mem_cons_of_mem _ member)).keep changed
            (otherFree.mono (Nat.le_refl _) (by omega))
        rw [List.append_cons] at apart free
        rcases induction (p + (entry.text.length + 1)) middle wider
          (by rw [stop]; omega) still apart (by rw [changed.size, Memory.touch_cells]; omega)
          (fun string member => (free string member).mono (Nat.le_add_right p _) (by omega)) with
          ⟨moved, osArgvLast, after, ran, sameTexts, standing, filled, further, later⟩
        have copy : (⟨p, entry.text⟩ : PlacedString).In after.cells := by
          have before : (⟨p, entry.text⟩ : PlacedString).In middle.cells := copied
          exact before.keep later (Or.inl (Nat.le_refl _))
        have outside : (⟨p, entry.text⟩ : PlacedString).Outside first osArgvLast := by
          apply filled.outside
          · rw [stop] at further
            omega
          · intro string member
            rcases free string member with before | behind
            · exact Or.inl before
            · exact Or.inr (by simp only [stop]; omega)
        refine ⟨⟨p, entry.text⟩ :: moved, osArgvLast, after, ?_, ?_, ?_, ?_, ?_, ?_⟩
        · rw [List.map_cons, moveEnviron, if_pos follows,
            FaultM.run_bind (strlen_of_hasString isPresent), FaultM.run_bind copies]
          exact FaultM.run_bind ran
        · rw [List.map_cons, List.map_cons, sameTexts]
        · intro other member
          rcases List.mem_cons.mp member with isCopy | isMoved
          · rw [isCopy]
            exact ⟨copy, outside⟩
          · exact standing other isMoved
        · rw [List.append_cons]
          exact filled
        · rw [stop] at further
          omega
        · exact (changed.mono (Nat.le_refl _) (by rw [room]; omega)).trans
            (later.mono (by omega) (by rw [room]; omega))
      · have onlyRest : (done ++ rest).Sublist (done ++ entry :: rest) :=
          (List.sublist_cons_self entry rest).append_left done
        rcases induction p memory fill notEmpty
          (fun other member => present other (List.mem_cons_of_mem _ member))
          (apart.sublist onlyRest) (by omega)
          (fun string member =>
            (free string (onlyRest.subset member)).mono (Nat.le_refl _) (by omega)) with
          ⟨moved, osArgvLast, after, ran, sameTexts, standing, filled, further, later⟩
        refine ⟨entry :: moved, osArgvLast, after, ?_, ?_, ?_, ?_, further, ?_⟩
        · rw [List.map_cons, moveEnviron, if_neg follows]
          exact FaultM.run_bind ran
        · rw [List.map_cons, List.map_cons, sameTexts]
        · intro other member
          rcases List.mem_cons.mp member with isEntry | isMoved
          · rw [isEntry]
            exact ⟨isPresent.keep later (entryFree.mono (Nat.le_refl _) (by omega)),
              filled.outside (by omega) fromEntry⟩
          · exact standing other isMoved
        · exact filled.mono fun string member => onlyRest.subset member
        · exact later.mono (Nat.le_refl _) (by rw [room]; omega)

/-! ## Showing titles -/

namespace ProcTitle

def shown (process : ProcTitle) (title : CString) : CString :=
  title.take (process.osArgvLast - process.argv0 - 1)

/-- The region from `argv[0]` to `os_argv_last` reads as this title, with NULs behind it. -/
structure Shows (process : ProcTitle) (title : CString) (cells : List Byte) : Prop where
  text : HasString cells process.argv0 (process.shown title)
  padded : ∀ index, process.argv0 + (process.shown title).length ≤ index →
    index ≤ process.osArgvLast → cells[index]? = some 0

/-- Before and after each `setproctitle`: the environment lies outside of the region, which ends
with a NUL. -/
structure Ready (process : ProcTitle) (entries : List PlacedString) (cells : List Byte) :
    Prop where
  ordered : process.argv0 ≤ process.osArgvLast
  nul : cells[process.osArgvLast]? = some 0
  present : ∀ entry, entry ∈ entries → entry.In cells
  outside : ∀ entry, entry ∈ entries → entry.Outside process.argv0 (process.osArgvLast + 1)

variable {process : ProcTitle} {entries : List PlacedString}

theorem Ready.keep {before after : List Byte} (ready : process.Ready entries before)
    (same : SameOutside process.argv0 process.osArgvLast before after) :
    process.Ready entries after where
  ordered := ready.ordered
  nul := (same.outside _ (Or.inr (Nat.le_refl _))).trans ready.nul
  present := fun entry member => (ready.present entry member).keep same
    ((ready.outside entry member).mono (Nat.le_refl _) (Nat.le_succ _))
  outside := ready.outside

theorem Ready.with_argvRest {cells : List Byte} (ready : process.Ready entries cells)
    (argvRest : List Nat) : Ready { process with argvRest } entries cells :=
  ⟨ready.ordered, ready.nul, ready.present, ready.outside⟩

theorem Shows.with_argvRest {title : CString} {cells : List Byte}
    (shows : process.Shows title cells) (argvRest : List Nat) :
    Shows { process with argvRest } title cells :=
  ⟨shows.text, shows.padded⟩

theorem setproctitle_spec {memory : Memory} (ready : process.Ready entries memory.cells)
    {title : PlacedString} (present : title.In memory.cells)
    (apart : title.Outside process.argv0 (process.osArgvLast + 1)) :
    ∃ after, setproctitle process title.address memory =
        some ({ process with argvRest := [] }, after) ∧
      SameOutside process.argv0 process.osArgvLast memory.cells after.cells ∧
      process.Shows title.text after.cells := by
  have ordered := ready.ordered
  have bound := (List.getElem?_eq_some_iff.mp ready.nul).1
  cases room : process.osArgvLast - process.argv0 with
  | zero =>
      have noRoom : process.osArgvLast = process.argv0 := by omega
      have nul := ready.nul
      rw [noRoom] at nul
      have copies : cpystrn process.argv0 title.address 0 memory =
          some (process.argv0, memory) := rfl
      have isShown : process.shown title.text = [] := by
        rw [shown, room]
        exact List.take_zero
      refine ⟨memory, ?_, SameOutside.refl _ _ _, ?_, ?_⟩
      · rw [setproctitle, room, FaultM.run_bind copies]
        simp [room, pure, StateT.pure]
      · rw [isShown]
        exact ⟨List.not_mem_nil, nofun, nul⟩
      · intro index behind before
        rw [isShown, List.length_nil] at behind
        rw [show index = process.argv0 by omega]
        exact nul
  | succ n =>
      have apartFront : title.address + title.text.length < process.argv0 ∨
          process.argv0 + n < title.address :=
        apart.imp (fun before => by rw [stop] at before; omega) (fun behind => by omega)
      rcases cpystrnLoop_spec n process.argv0 _ memory present (by omega) apartFront with
        ⟨middle, copies, changed, copied⟩
      have isShown : process.shown title.text = title.text.take n := by
        rw [shown, room]
        rfl
      rw [← isShown] at copies copied
      have short : (process.shown title.text).length ≤ n := by
        rw [isShown, List.length_take]
        exact Nat.min_le_left _ _
      let p := process.argv0 + (process.shown title.text).length
      have rest : p + (process.osArgvLast - p) = process.osArgvLast := by omega
      rcases memset_spec 0 p (process.osArgvLast - p) middle
        (by rw [rest, changed.size]; omega) with ⟨after, fills, later, filled⟩
      rw [rest] at later filled
      have whole : SameOutside process.argv0 process.osArgvLast memory.cells after.cells :=
        (changed.mono (Nat.le_refl _) (by omega)).trans
          (later.mono (Nat.le_add_right _ _) (Nat.le_refl _))
      refine ⟨after, ?_, whole, ?_, ?_⟩
      · rw [setproctitle, room, cpystrn, FaultM.run_bind copies, if_pos (by omega),
          FaultM.run_bind fills]
        rfl
      · refine ⟨copied.clean, fun index inside => ?_, filled p (Nat.le_refl _) (by omega)⟩
        rw [later.outside _ (Or.inl (Nat.add_lt_add_left inside _))]
        exact copied.bytes index inside
      · intro index behind before
        rcases Nat.lt_or_eq_of_le before with inside | isLast
        · exact filled index behind inside
        · rw [isLast]
          exact (ready.keep whole).nul

theorem setproctitles_spec {titles : List PlacedString} {memory : Memory}
    (ready : process.Ready entries memory.cells)
    (present : ∀ title, title ∈ titles → title.In memory.cells)
    (apart : ∀ title, title ∈ titles → title.Outside process.argv0 (process.osArgvLast + 1)) :
    ∃ argvRest after, (titles.map address).foldlM setproctitle process memory =
        some ({ process with argvRest }, after) ∧
      SameOutside process.argv0 process.osArgvLast memory.cells after.cells ∧
      ∀ title, titles.getLast? = some title →
        argvRest = [] ∧ process.Shows title.text after.cells := by
  induction titles using List.reverseRecOn with
  | nil => exact ⟨process.argvRest, memory, rfl, SameOutside.refl _ _ _, nofun⟩
  | append_singleton titles title induction =>
      rcases induction (fun other member => present other (List.mem_append_left _ member))
        (fun other member => apart other (List.mem_append_left _ member)) with
        ⟨argvRest, middle, ran, earlier, -⟩
      have isTitle : title ∈ titles ++ [title] := List.mem_append_right _ List.mem_cons_self
      have unchanged : title.In middle.cells := (present title isTitle).keep earlier
        ((apart title isTitle).mono (Nat.le_refl _) (Nat.le_succ _))
      have still := (ready.keep earlier).with_argvRest argvRest
      rcases setproctitle_spec still unchanged (apart title isTitle) with
        ⟨after, last, later, shows⟩
      refine ⟨[], after, ?_, earlier.trans later, ?_⟩
      · rw [List.map_append, List.foldlM_append, FaultM.run_bind ran]
        exact FaultM.run_bind last
      · intro other isLast
        rw [List.getLast?_concat] at isLast
        cases isLast
        exact ⟨rfl, shows.with_argvRest process.argvRest⟩

end ProcTitle

/-! ## From the start of the process -/

/-- A process that sets titles: the strings of `argv`, of the environment and of the titles, and
the allocator. -/
structure TitledProcess where
  program : PlacedString
  words : List PlacedString
  entries : List PlacedString
  titles : List PlacedString
  calloc : Nat → Nat

namespace TitledProcess

variable (setting : TitledProcess)

def strings : List PlacedString := setting.program :: setting.words ++ setting.entries

def block : Nat := setting.calloc (room setting.entries)

def run : MemM ProcTitle := do
  let process ← initSetproctitle setting.calloc setting.program.address
    (setting.words.map address) (setting.entries.map address)
  (setting.titles.map address).foldlM setproctitle process

/-- The strings lie in memory and apart from each other, and the allocator gives memory apart
from them. Where they lie and in which order is open. -/
structure Standing (cells : List Byte) : Prop where
  present : ∀ string, string ∈ setting.strings → string.In cells
  titles : ∀ title, title ∈ setting.titles → title.In cells
  apart : setting.strings.Pairwise Apart
  titlesApart : ∀ title, title ∈ setting.titles →
    ∀ string, string ∈ setting.strings → string.Apart title
  allocated : setting.block + room setting.entries ≤ cells.length
  free : Free setting.block (room setting.entries) setting.strings
  titlesFree : Free setting.block (room setting.entries) setting.titles

/-- The environment has the same entries in the same order, none of them in the region for the
title; this begins at `argv[0]`, has nothing in it but former words and entries, and together
with the copies it is all that was changed. -/
structure Kept (before : List Byte) (process : ProcTitle) (entries : List PlacedString)
    (after : List Byte) : Prop where
  environ : process.environ = entries.map address
  texts : entries.map text = setting.entries.map text
  ready : process.Ready entries after
  start : process.argv0 = setting.program.address
  wide : setting.program.stop ≤ process.osArgvLast + 1
  region : Fill setting.strings process.argv0 (process.osArgvLast + 1)
  unchanged : ∀ index, index < process.argv0 ∨ process.osArgvLast ≤ index →
    index < setting.block ∨ setting.block + room setting.entries ≤ index →
    after[index]? = before[index]?

variable {setting} {memory : Memory}

theorem initSetproctitle_spec (standing : setting.Standing memory.cells) :
    ∃ (process : ProcTitle) (entries : List PlacedString) (after : Memory),
      initSetproctitle setting.calloc setting.program.address (setting.words.map address)
          (setting.entries.map address) memory = some (process, after) ∧
        setting.Kept memory.cells process entries after.cells ∧
        SameOutside setting.block (setting.block + room setting.entries) memory.cells
          after.cells := by
  have sameRoom : setting.calloc (0 + room setting.entries) = setting.block := by
    rw [Nat.zero_add]
    rfl
  have entriesIn : ∀ entry, entry ∈ setting.entries → entry ∈ setting.strings :=
    fun entry member => List.mem_append_right _ member
  rcases environSize_spec setting.entries 0 memory (fun entry member =>
    standing.present entry (entriesIn entry member)) with ⟨sized, sizes, sameSized⟩
  rcases memset_spec 0 setting.block (room setting.entries) sized (by
    rw [sameSized]; exact standing.allocated) with
    ⟨cleared, clears, zeroed, -⟩
  rw [sameSized] at zeroed
  have stillIn : ∀ string, string ∈ setting.strings → string.In cleared.cells :=
    fun string member => (standing.present string member).keep zeroed (standing.free string member)
  have programIn : setting.program ∈ setting.strings := List.mem_cons_self
  have begins : Fill [setting.program] setting.program.address setting.program.stop :=
    (Fill.empty _ _).next List.mem_cons_self
  rcases argvEnd_spec setting.words
    (cleared.touch setting.program.address (setting.program.text.length + 1)) begins
    (fun word member => stillIn word (List.mem_append_left _ (List.mem_cons_of_mem _ member))) with
    ⟨wordsEnd, listed, ends, sameListed, filled, further⟩
  have allEnds : argvEnd (setting.program.address :: setting.words.map address)
      setting.program.address cleared = some (wordsEnd, listed) := by
    rw [argvEnd, if_pos rfl, FaultM.run_bind (strlen_of_hasString (stillIn _ programIn))]
    exact ends
  have programStop : setting.program.address < setting.program.stop := by
    rw [stop]
    omega
  have allStill : listed.cells = cleared.cells := sameListed
  rcases moveEnviron_spec setting.entries setting.block listed
    filled (by omega)
    (fun entry member => by rw [allStill]; exact stillIn entry (entriesIn entry member))
    standing.apart (by rw [allStill, zeroed.size]; exact standing.allocated) standing.free with
    ⟨entries, osArgvLast, after, moves, texts, kept, region, later, changed⟩
  rw [allStill] at changed
  have whole := zeroed.trans changed
  have isLast : osArgvLast - 1 + 1 = osArgvLast := by omega
  refine ⟨⟨setting.program.address, setting.words.map address, entries.map address,
    osArgvLast - 1⟩, entries, after, ?_, ?_, whole⟩
  · rw [initSetproctitle, FaultM.run_bind sizes, sameRoom, Nat.zero_add,
      FaultM.run_bind clears, FaultM.run_bind allEnds, FaultM.run_bind moves]
    rfl
  · refine ⟨rfl, texts, ⟨?_, ?_, fun entry member => (kept entry member).1, ?_⟩, rfl, ?_, ?_, ?_⟩
    · change setting.program.address ≤ osArgvLast - 1
      omega
    · exact region.nul (by omega) fun string member =>
        (standing.present string member).keep whole (standing.free string member)
    · change ∀ entry, entry ∈ entries →
        entry.Outside setting.program.address (osArgvLast - 1 + 1)
      rw [isLast]
      exact fun entry member => (kept entry member).2
    · change setting.program.stop ≤ osArgvLast - 1 + 1
      omega
    · change Fill setting.strings setting.program.address (osArgvLast - 1 + 1)
      rw [isLast]
      exact region
    · exact fun index _ outside => whole.outside index outside

/-- However the strings of the process lie in memory, setting titles faults nowhere, keeps every
entry of the environment and shows the last title at `argv[0]`, cut off at the end of the
region. -/
theorem setting_titles_keeps_environ (standing : setting.Standing memory.cells) :
    ∃ (process : ProcTitle) (entries : List PlacedString) (after : Memory),
      setting.run memory = some (process, after) ∧
        setting.Kept memory.cells process entries after.cells ∧
        ∀ title, setting.titles.getLast? = some title →
          process.argvRest = [] ∧ process.Shows title.text after.cells := by
  rcases initSetproctitle_spec standing with ⟨process, entries, middle, starts, kept, changed⟩
  have present : ∀ title, title ∈ setting.titles → title.In middle.cells :=
    fun title member => (standing.titles title member).keep changed
      (standing.titlesFree title member)
  have apart : ∀ title, title ∈ setting.titles →
      title.Outside process.argv0 (process.osArgvLast + 1) :=
    fun title member => kept.region.outside (Nat.lt_succ_of_le kept.ready.ordered)
      (standing.titlesApart title member)
  rcases ProcTitle.setproctitles_spec kept.ready present apart with
    ⟨argvRest, after, ran, titled, shows⟩
  refine ⟨{ process with argvRest }, entries, after, ?_, ?_, ?_⟩
  · rw [run, FaultM.run_bind starts]
    exact ran
  · refine ⟨kept.environ, kept.texts, (kept.ready.keep titled).with_argvRest argvRest,
      kept.start, kept.wide, kept.region, ?_⟩
    intro index outside apartFromCopies
    exact (titled.outside index outside).trans (kept.unchanged index outside apartFromCopies)
  · intro title isLast
    rcases shows title isLast with ⟨noRest, shown⟩
    exact ⟨noRest, shown.with_argvRest argvRest⟩

def daemonCells : List Byte :=
  ascii "su" ++ 0 :: ascii "--daemon" ++ 0 :: ascii "A=1" ++ 0 :: 7 :: ascii "B=2" ++
    0 :: ascii "permd" ++ 0 :: List.replicate 8 7

def daemonProcess : TitledProcess where
  program := ⟨0, ascii "su"⟩
  words := [⟨3, ascii "--daemon"⟩]
  entries := [⟨12, ascii "A=1"⟩, ⟨17, ascii "B=2"⟩]
  titles := [⟨21, ascii "permd"⟩]
  calloc := fun _ => 27

theorem daemonProcess_standing : daemonProcess.Standing daemonCells := by
  have here : ∀ string, string ∈ daemonProcess.strings ++ daemonProcess.titles →
      0 ∉ string.text ∧ daemonCells.drop string.address =
        string.text ++ 0 :: daemonCells.drop string.stop := by
    decide
  have isIn : ∀ string, string ∈ daemonProcess.strings ++ daemonProcess.titles →
      string.In daemonCells :=
    fun string member => HasString.of_drop (here string member).1 (here string member).2
  refine ⟨fun string member => isIn string (List.mem_append_left _ member),
    fun title member => isIn title (List.mem_append_right _ member), ?_, ?_, ?_, ?_, ?_⟩
  · decide
  · decide
  · decide
  · unfold Free
    decide
  · unfold Free
    decide

theorem daemonProcess_keeps_environ :
    daemonProcess.Standing (Memory.mk daemonCells []).cells ∧
      ∃ (process : ProcTitle) (entries : List PlacedString) (after : Memory),
        daemonProcess.run ⟨daemonCells, []⟩ = some (process, after) ∧
          daemonProcess.Kept daemonCells process entries after.cells ∧
          ∀ title, daemonProcess.titles.getLast? = some title →
            process.argvRest = [] ∧ process.Shows title.text after.cells :=
  ⟨daemonProcess_standing, setting_titles_keeps_environ daemonProcess_standing⟩

end TitledProcess

end SuBinary.Su
