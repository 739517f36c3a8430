import SuBinary.Magiskpolicy.OperationEffect

/-! # Named type transitions

`add_file_transition` searches for its key in the type table, and inserts the
address of a local variable in the table of transitions.
-/

namespace SuBinary.Magiskpolicy

open SuBinary Sepol

/-! ## Last write wins -/

structure FileTransition where
  s : CString
  t : CString
  c : CString
  d : CString
  filename : CString

/-- The key of a call and its default type; `none` is an unknown name. -/
def FileTransition.write (p : Policy) (call : FileTransition) : Option (FilenameTrans × Nat) :=
  match transitionSymbols p call.s call.t call.c call.d with
  | .error _ => none
  | .ok symbols =>
      some
        ({ stype := symbols.src.value
           ttype := symbols.tgt.value
           tclass := symbols.cls.value
           name := call.filename }, symbols.default.value)

def runTransitions (calls : List FileTransition) (p : Policy) : Option Policy :=
  runSteps (fun call p => (addFileTransition p call.s call.t call.c call.d call.filename).map
    Prod.fst) calls p

/-- What a search for the key is to yield after the calls: the default type of the
last call with the key, or else what it yielded before. -/
def lastWrite (p : Policy) (calls : List FileTransition) (key : FilenameTrans) :
    Option (Option Nat) :=
  calls.foldl (fun found call =>
    match call.write p with
    | none => found
    | some (written, default) => if written = key then some (some default) else found)
    (p.filenameTrans.search key)

/-- After the calls each key has its last default type, and the types are as they
were. -/
structure LastWriteWins (p : Policy) (calls : List FileTransition) (last : Policy) : Prop where
  lookups : ∀ key, last.filenameTrans.search key = lastWrite p calls key
  pTypes : last.pTypes = p.pTypes

/-- The table has the entry already, and no type has the key for its name, unless it
has the value that would be written to it. -/
def Idle (p : Policy) (call : FileTransition) : Prop :=
  ∀ key default, call.write p = some (key, default) →
    p.filenameTrans.search key = some (some default) ∧
    ∀ type, hashtabSearch p.pTypes.table (transKeyString key) = some type → type.value = default

/-! ## One call -/

theorem addFileTransition_eq (p : Policy) (call : FileTransition) :
    addFileTransition p call.s call.t call.c call.d call.filename =
      match call.write p with
      | none => some (p, 1)
      | some (key, default) =>
          match hashtabSearch p.pTypes.table (transKeyString key) with
          | some _ =>
              some ({ p with
                pTypes :=
                  { p.pTypes with
                    table := p.pTypes.table.modify (transKeyString key) fun type =>
                      { type with value := default } } }, 0)
          | none =>
              (p.filenameTrans.insert key .dead default).map fun inserted =>
                ({ p with filenameTrans := inserted.getD p.filenameTrans }, 0) := by
  unfold addFileTransition FileTransition.write
  cases transitionSymbols p call.s call.t call.c call.d with
  | error error => rfl
  | ok symbols => rfl

theorem modify_eq_self {table : Hashtab Datum} {key : CString} {datum : Datum}
    (found : hashtabSearch table key = some datum) (change : Datum → Datum)
    (same : change datum = datum) : table.modify key change = table := by
  have entries : table.entries.map (fun entry =>
      (entry.1, if entry.1 = key then change entry.2 else entry.2)) = table.entries := by
    conv_rhs => rw [← List.map_id table.entries]
    apply List.map_congr_left
    intro entry member
    by_cases isKey : entry.1 = key
    · have searched := (hashtabSearch_eq_some_iff table entry.1 entry.2).mpr member
      rw [isKey, found] at searched
      cases searched
      simp only [if_pos isKey, same]
      rfl
    · simp only [if_neg isKey]
      rfl
  simp only [Hashtab.modify, Hashtab.mapEntries, entries]

theorem addFileTransition_idle {p : Policy} {call : FileTransition} (idle : Idle p call) :
    ∃ result, addFileTransition p call.s call.t call.c call.d call.filename = some (p, result) := by
  rw [addFileTransition_eq]
  cases written : call.write p with
  | none => exact ⟨1, rfl⟩
  | some entry =>
      rcases entry with ⟨key, default⟩
      rcases idle key default written with ⟨stored, unaliased⟩
      refine ⟨0, ?_⟩
      dsimp only
      cases found : hashtabSearch p.pTypes.table (transKeyString key) with
      | some type =>
          have sameValue : { type with value := default } = type := by
            rw [← unaliased type found]
          rw [modify_eq_self found (fun type => { type with value := default }) sameValue]
      | none =>
          have refused := (PointerTable.insert_refused_iff p.filenameTrans key .dead default).mpr
            ⟨default, stored⟩
          simp [refused]

/-- A call that is not idle writes to the type table, or leaves its key unset or not to
be read. -/
theorem idle_of_lastWriteWins {p last : Policy} {call : FileTransition} {result : Nat}
    (ran : addFileTransition p call.s call.t call.c call.d call.filename = some (last, result))
    (stored : ∀ key default, call.write p = some (key, default) →
      last.filenameTrans.search key = some (some default))
    (sameTypes : last.pTypes = p.pTypes) : Idle p call := by
  rw [addFileTransition_eq] at ran
  intro key default written
  have isStored := stored key default written
  rw [written] at ran
  dsimp only at ran
  cases found : hashtabSearch p.pTypes.table (transKeyString key) with
  | some type =>
      simp only [found, Option.some.injEq, Prod.mk.injEq] at ran
      rcases ran with ⟨rfl, -⟩
      refine ⟨isStored, fun other isOther => ?_⟩
      cases isOther
      have sameTable := congrArg Symtab.table sameTypes
      dsimp only at sameTable
      have searched := hashtabSearch_mapEntries p.pTypes.table (fun name type =>
        if name = transKeyString key then { type with value := default } else type)
        (transKeyString key)
      rw [← Hashtab.modify, sameTable, found, Option.map_some, if_pos rfl] at searched
      exact congrArg (fun type => type.value) (Option.some.inj searched)
  | none =>
      simp only [found] at ran
      rcases Option.map_eq_some_iff.mp ran with ⟨inserted, insertion, changed⟩
      cases changed
      have newName : ∀ type : TypeSymbol, none = some type → type.value = default := by
        intro type isType
        cases isType
      refine ⟨?_, newName⟩
      cases inserted with
      | none => exact isStored
      | some table =>
          have lost := PointerTable.search_of_insert_dead insertion
          dsimp only [Option.getD_some] at isStored
          rw [lost] at isStored
          cases isStored

/-! ## Sequences of calls -/

theorem runTransitions_idle {p : Policy} {calls : List FileTransition}
    (idle : ∀ call, call ∈ calls → Idle p call) :
    runTransitions calls p = some p ∧
      ∀ key, lastWrite p calls key = p.filenameTrans.search key := by
  induction calls using List.reverseRecOn with
  | nil => exact ⟨rfl, fun key => rfl⟩
  | append_singleton calls call induction =>
      rcases induction fun earlier member => idle earlier (List.mem_append_left _ member) with
        ⟨ran, looked⟩
      have lastIdle := idle call (List.mem_append_right _ (List.mem_singleton_self call))
      rcases addFileTransition_idle lastIdle with ⟨result, called⟩
      refine ⟨?_, fun key => ?_⟩
      · rw [runTransitions, runSteps_concat, ← runTransitions, ran, Option.bind_some, called]
        rfl
      · have before := looked key
        rw [lastWrite] at before ⊢
        rw [List.foldl_append, before, List.foldl_cons, List.foldl_nil]
        cases written : call.write p with
        | none => rfl
        | some entry =>
            dsimp only
            split
            · rename_i isKey
              rw [← isKey]
              exact (lastIdle entry.1 entry.2 written).1.symm
            · rfl

/-- The last write wins after all first calls of a sequence exactly if all its calls
are idle. -/
theorem named_transitions_iff (p : Policy) (calls : List FileTransition) :
    (∀ done, done <+: calls → ∃ last, runTransitions done p = some last ∧
      LastWriteWins p done last) ↔ ∀ call, call ∈ calls → Idle p call := by
  constructor
  · intro wins
    induction calls using List.reverseRecOn with
    | nil => exact fun call member => nomatch member
    | append_singleton calls call induction =>
        have earlier := induction fun done isFirst =>
          wins done (isFirst.trans (List.prefix_append calls [call]))
        rcases runTransitions_idle earlier with ⟨ran, looked⟩
        rcases wins (calls ++ [call]) List.prefix_rfl with ⟨last, ranAll, won⟩
        rw [runTransitions, runSteps_concat, ← runTransitions, ran, Option.bind_some,
          Option.map_eq_some_iff] at ranAll
        rcases ranAll with ⟨⟨next, result⟩, called, rfl⟩
        have lastIdle : Idle p call := by
          refine idle_of_lastWriteWins called (fun key default written => ?_) won.pTypes
          rw [won.lookups key, lastWrite, List.foldl_append]
          simp [written]
        intro other member
        rcases List.mem_append.mp member with before | isLast
        · exact earlier other before
        · rw [List.mem_singleton.mp isLast]
          exact lastIdle
  · intro idle done isFirst
    rcases runTransitions_idle fun call member => idle call (isFirst.subset member) with
      ⟨ran, looked⟩
    exact ⟨p, ran, fun key => (looked key).symm, rfl⟩

def shellTransition : FileTransition where
  s := ascii "shell"
  t := ascii "shell"
  c := ascii "file"
  d := ascii "domain"
  filename := ascii "tmp"

/-- The new entry cannot be searched for. -/
theorem shellTransition_lost :
    ¬∃ last, runTransitions [shellTransition] (shellPolicy 30) = some last ∧
      LastWriteWins (shellPolicy 30) [shellTransition] last := by
  rintro ⟨last, ran, won⟩
  have expected := won.lookups { stype := 1, ttype := 1, tclass := 1, name := ascii "tmp" }
  have lost : (runTransitions [shellTransition] (shellPolicy 30)).map (fun last =>
      last.filenameTrans.search { stype := 1, ttype := 1, tclass := 1, name := ascii "tmp" }) =
      some none := by
    decide +kernel
  have written : lastWrite (shellPolicy 30) [shellTransition]
      { stype := 1, ttype := 1, tclass := 1, name := ascii "tmp" } = some (some 2) := by
    decide +kernel
  rw [ran, Option.map_some, expected, written] at lost
  cases lost

end SuBinary.Magiskpolicy
