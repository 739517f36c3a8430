import SuBinary.Foundation.Runs
import SuBinary.Sepol.SymtabChains

/-! # Hash tables in use

Any sequence of calls leaves a table that stands for a map, and the symbol tables are such
tables.
-/

namespace SuBinary.Sepol

open SuBinary SortedChain

/-! ## Runs -/

inductive HashtabCall (Key Datum : Type)
  | insert (key : Key) (datum : Datum)
  | remove (key : Key)
  | replace (key : Key) (datum : Datum)
  | mapRemoveOnError (apply : Key → Datum → Int)

structure HashtabUse (Key Datum : Type) where
  table : HashtabVal Key Datum
  returned : List Int
  destroyed : List (Key × Datum)

/-- What is to be expected of a table after some calls: the datum of each key, what the calls
returned, the entries that were handed over, and how many of them `hashtab_replace` did not
count. -/
structure Ledger (Key Datum : Type) where
  content : Key → Option Datum
  returned : List Int
  accepted : List (Key × Datum)
  uncounted : Nat

section Runs

variable {Key Datum : Type} (functions : KeyFunctions Key)

def HashtabVal.perform (h : HashtabVal Key Datum) :
    HashtabCall Key Datum → Option (HashtabResult Key Datum)
  | .insert key datum => h.hashtabInsert functions key datum
  | .remove key => h.hashtabRemove functions key
  | .replace key datum => h.hashtabReplace functions key datum
  | .mapRemoveOnError apply => h.hashtabMapRemoveOnError apply

def HashtabUse.call (call : HashtabCall Key Datum) (state : HashtabUse Key Datum) :
    Option (HashtabUse Key Datum) := do
  let result ← state.table.perform functions call
  return {
    table := result.table
    returned := state.returned ++ [result.ret]
    destroyed := state.destroyed ++ result.destroyed }

def HashtabUse.new (size : UInt32) : HashtabUse Key Datum where
  table := HashtabVal.hashtabCreate size
  returned := []
  destroyed := []

def Ledger.new : Ledger Key Datum where
  content := fun _ => none
  returned := []
  accepted := []
  uncounted := 0

def Ledger.act [DecidableEq Key] (ledger : Ledger Key Datum) :
    HashtabCall Key Datum → Ledger Key Datum
  | .insert key datum =>
      if (ledger.content key).isSome then
        { ledger with returned := ledger.returned ++ [sepolEexist] }
      else
        { ledger with
          content := Function.update ledger.content key (some datum)
          returned := ledger.returned ++ [sepolOk]
          accepted := ledger.accepted ++ [(key, datum)] }
  | .remove key =>
      if (ledger.content key).isSome then
        { ledger with
          content := Function.update ledger.content key none
          returned := ledger.returned ++ [sepolOk] }
      else
        { ledger with returned := ledger.returned ++ [sepolEnoent] }
  | .replace key datum =>
      { content := Function.update ledger.content key (some datum)
        returned := ledger.returned ++ [sepolOk]
        accepted := ledger.accepted ++ [(key, datum)]
        uncounted := ledger.uncounted + if (ledger.content key).isSome then 0 else 1 }
  | .mapRemoveOnError apply =>
      { ledger with
        content := fun key => (ledger.content key).filter fun datum => apply key datum = 0
        returned := ledger.returned ++ [sepolOk] }

/-- The table is what the ledger says: nodes hold the content, each entry that was handed over
is in a node or was destroyed, once, and `nel` counts the nodes up to the uncounted ones. -/
structure HashtabUse.Stands (state : HashtabUse Key Datum) (ledger : Ledger Key Datum) :
    Prop where
  suit : functions.Suit state.table.size
  wellFormed : state.table.WellFormed functions
  content : ∀ key datum,
    (key, datum) ∈ state.table.listing ↔ ledger.content key = some datum
  returned : state.returned = ledger.returned
  accounted : (state.table.listing ++ state.destroyed).Perm ledger.accepted
  counted : state.table.nel + UInt32.ofNat ledger.uncounted =
    UInt32.ofNat state.table.listing.length

end Runs

section Runs

variable {Key Datum : Type} {functions : KeyFunctions Key}

structure Besides (content : Key → Option Datum) (key : Key) (others : List (Key × Datum)) :
    Prop where
  different : ∀ entry, entry ∈ others → entry.1 ≠ key
  content : ∀ other datum, other ≠ key → ((other, datum) ∈ others ↔ content other = some datum)

namespace HashtabUse

open HashtabVal

variable {state : HashtabUse Key Datum} {ledger : Ledger Key Datum} {key : Key}
  {chain : List (Key × Datum)}

theorem Stands.of_found (stands : state.Stands functions ledger) {cur : Key × Datum}
    {next others : List (Key × Datum)}
    (found : Found functions state.table key chain cur next others) :
    ledger.content key = some cur.2 ∧ Besides ledger.content key others := by
  refine ⟨?_, found.different, ?_⟩
  · apply (stands.content key cur.2).mp
    rw [found.listing.mem_iff, ← found.isKey]
    exact List.mem_cons_self
  · intro other datum different
    rw [← stands.content, found.listing.mem_iff, List.mem_cons]
    have notCur : (other, datum) ≠ cur := by
      rintro rfl
      exact different found.isKey
    exact (or_iff_right notCur).symm

theorem Stands.of_missing (stands : state.Stands functions ledger)
    (missing : Missing functions state.table key chain) :
    ledger.content key = none ∧ Besides ledger.content key state.table.listing := by
  refine ⟨?_, missing.different, fun other datum _ => stands.content other datum⟩
  cases isContent : ledger.content key with
  | none => rfl
  | some datum => exact absurd rfl (missing.different _ ((stands.content key datum).mpr isContent))

theorem Stands.unchanged (stands : state.Stands functions ledger) (ret : Int) :
    HashtabUse.Stands functions
      { state with
        returned := state.returned ++ [ret]
        destroyed := state.destroyed ++ [] }
      { ledger with returned := ledger.returned ++ [ret] } where
  suit := stands.suit
  wellFormed := stands.wellFormed
  content := stands.content
  returned := by rw [stands.returned]
  accounted := by rw [List.append_nil]; exact stands.accounted
  counted := stands.counted

theorem Stands.new {size : UInt32} (suit : functions.Suit size) :
    (HashtabUse.new size : HashtabUse Key Datum).Stands functions Ledger.new where
  suit := suit
  wellFormed := HashtabVal.wellFormed_create functions size
  content key datum := by
    rw [HashtabUse.new, HashtabVal.listing_create]
    simp [Ledger.new]
  returned := rfl
  accounted := by
    rw [HashtabUse.new, HashtabVal.listing_create]
    exact List.Perm.refl _
  counted := by
    rw [HashtabUse.new, HashtabVal.listing_create]
    rfl

theorem Stands.search (stands : state.Stands functions ledger) (key : Key) :
    state.table.hashtabSearch functions key = some (ledger.content key) := by
  rcases stands.wellFormed.walk stands.suit key with
    ⟨chain, cur, next, others, found⟩ | ⟨chain, missing⟩
  · rw [found.search, (stands.of_found found).1]
  · rw [missing.search, (stands.of_missing missing).1]

end HashtabUse

theorem HashtabVal.WellFormed.distinct {h : HashtabVal Key Datum}
    (wellFormed : h.WellFormed functions) (orders : Orders functions.keycmp) :
    (h.listing.map Prod.fst).Nodup := by
  rw [HashtabVal.listing, List.map_flatten, List.nodup_flatten]
  constructor
  · intro keys member
    rcases List.mem_map.mp member with ⟨chain, inTable, rfl⟩
    rcases List.mem_iff_getElem?.mp inTable with ⟨slot, isChain⟩
    exact (wellFormed.ascending slot chain isChain).nodup orders
  · apply List.pairwise_iff_getElem.mpr
    intro first second firstInside secondInside ordered key inFirst inSecond
    rw [List.getElem_map] at inFirst inSecond
    rcases List.mem_map.mp inFirst with ⟨entry, member, rfl⟩
    rcases List.mem_map.mp inSecond with ⟨other, otherMember, sameKey⟩
    have here := wellFormed.placed first _ (List.getElem?_eq_getElem _) entry member
    have there := wellFormed.placed second _ (List.getElem?_eq_getElem _) other otherMember
    rw [sameKey] at there
    omega

/-- What a table is good for once its calls are in a ledger. -/
structure HashtabUse.Serves (functions : KeyFunctions Key) (state : HashtabUse Key Datum)
    (ledger : Ledger Key Datum) : Prop where
  returned : state.returned = ledger.returned
  search : ∀ key, state.table.hashtabSearch functions key = some (ledger.content key)
  map : ∀ {Args : Type} (apply : Key → Datum → Args → Int × Args) (args : Args),
    state.table.hashtabMap apply args =
      some (HashtabVal.mapNodes apply state.table.listing args)
  content : ∀ key datum,
    (key, datum) ∈ state.table.listing ↔ ledger.content key = some datum
  distinct : (state.table.listing.map Prod.fst).Nodup
  accounted : (state.table.listing ++ state.destroyed).Perm ledger.accepted
  counted : state.table.nel + UInt32.ofNat ledger.uncounted =
    UInt32.ofNat state.table.listing.length

namespace HashtabUse

variable {state : HashtabUse Key Datum} {ledger : Ledger Key Datum}

theorem Stands.serves (stands : state.Stands functions ledger) : state.Serves functions ledger where
  returned := stands.returned
  search := stands.search
  map := stands.wellFormed.hashtabMap
  content := stands.content
  distinct := stands.wellFormed.distinct stands.suit.orders
  accounted := stands.accounted
  counted := stands.counted

end HashtabUse

/-! ## Accounts of the entries -/

theorem perm_added {nodes rest gone accepted : List Entry} {new : Entry}
    (perm : nodes.Perm (new :: rest)) (accounted : (rest ++ gone).Perm accepted) :
    (nodes ++ gone).Perm (accepted ++ [new]) := by
  have first : (nodes ++ gone).Perm (new :: (rest ++ gone)) := perm.append_right gone
  exact (first.trans (accounted.cons new)).trans (List.perm_append_singleton new accepted).symm

theorem perm_destroyed {nodes others gone accepted : List Entry} {cur : Entry}
    (perm : nodes.Perm (cur :: others)) (accounted : (nodes ++ gone).Perm accepted) :
    (others ++ (gone ++ [cur])).Perm accepted := by
  have last : (others ++ (gone ++ [cur])).Perm (cur :: (others ++ gone)) := by
    rw [← List.append_assoc]
    exact List.perm_append_singleton cur (others ++ gone)
  exact (last.trans (perm.append_right gone).symm).trans accounted

theorem perm_filtered {nodes gone accepted : List Entry} (keep : Entry → Bool)
    (accounted : (nodes ++ gone).Perm accepted) :
    (nodes.filter keep ++ (gone ++ nodes.filter fun entry => !keep entry)).Perm accepted := by
  have swapped : (nodes.filter keep ++ (gone ++ nodes.filter fun entry => !keep entry)).Perm
      (nodes.filter keep ++ nodes.filter (fun entry => !keep entry) ++ gone) := by
    rw [List.append_assoc]
    exact List.perm_append_comm.append_left _
  exact (swapped.trans ((List.filter_append_perm keep nodes).append_right gone)).trans accounted

/-! ## Single calls -/

variable [DecidableEq Key]

theorem Besides.with {content : Key → Option Datum} {key : Key} {others nodes : List (Key × Datum)}
    (besides : Besides content key others) {new : Datum}
    (perm : nodes.Perm ((key, new) :: others)) (other : Key) (datum : Datum) :
    (other, datum) ∈ nodes ↔ Function.update content key (some new) other = some datum := by
  rw [perm.mem_iff, List.mem_cons]
  by_cases same : other = key
  · subst same
    have notOther : (other, datum) ∉ others := fun member => besides.different _ member rfl
    rw [Function.update_self, Option.some_inj, or_iff_left notOther, Prod.mk.injEq]
    simp [eq_comm]
  · rw [Function.update_of_ne same, ← besides.content other datum same]
    simp [same]

theorem Besides.without {content : Key → Option Datum} {key : Key}
    {others nodes : List (Key × Datum)} (besides : Besides content key others)
    (perm : nodes.Perm others) (other : Key) (datum : Datum) :
    (other, datum) ∈ nodes ↔ Function.update content key none other = some datum := by
  rw [perm.mem_iff]
  by_cases same : other = key
  · subst same
    rw [Function.update_self]
    exact iff_of_false (fun member => besides.different _ member rfl) (by simp)
  · rw [Function.update_of_ne same, besides.content other datum same]

namespace HashtabUse

open HashtabVal

variable {state : HashtabUse Key Datum} {ledger : Ledger Key Datum}

theorem Stands.insert (stands : state.Stands functions ledger) (key : Key) (datum : Datum) :
    ∃ last, state.call functions (.insert key datum) = some last ∧
      last.Stands functions (ledger.act (.insert key datum)) := by
  rcases stands.wellFormed.walk stands.suit key with
    ⟨chain, cur, next, others, found⟩ | ⟨chain, missing⟩
  · rcases stands.of_found found with ⟨isContent, -⟩
    refine ⟨_, by rw [call, perform, found.insert]; rfl, ?_⟩
    simp only [Ledger.act, isContent, Option.isSome_some, if_true]
    exact stands.unchanged sepolEexist
  · rcases stands.of_missing missing with ⟨isContent, besides⟩
    rcases missing.insert datum with ⟨table, inserts, wellFormed, sameSize, perm, nel⟩
    refine ⟨_, by rw [call, perform, inserts]; rfl, ?_⟩
    simp only [Ledger.act, isContent, Option.isSome_none, Bool.false_eq_true, if_false]
    refine ⟨sameSize ▸ stands.suit, wellFormed, besides.with perm, by rw [stands.returned], ?_, ?_⟩
    · rw [List.append_nil]
      exact perm_added perm stands.accounted
    · have counted := stands.counted
      rw [perm.length_eq, List.length_cons, nel, UInt32.ofNat_add, ← counted]
      grind

theorem Stands.remove (stands : state.Stands functions ledger) (key : Key) :
    ∃ last, state.call functions (.remove key) = some last ∧
      last.Stands functions (ledger.act (.remove key)) := by
  rcases stands.wellFormed.walk stands.suit key with
    ⟨chain, cur, next, others, found⟩ | ⟨chain, missing⟩
  · rcases stands.of_found found with ⟨isContent, besides⟩
    rcases found.remove with ⟨table, removes, wellFormed, sameSize, perm, nel⟩
    refine ⟨_, by rw [call, perform, removes]; rfl, ?_⟩
    simp only [Ledger.act, isContent, Option.isSome_some, if_true]
    refine ⟨sameSize ▸ stands.suit, wellFormed, besides.without perm, by rw [stands.returned],
      ?_, ?_⟩
    · have accounted := perm_destroyed found.listing stands.accounted
      exact (perm.append_right _).trans accounted
    · have counted := stands.counted
      rw [found.listing.length_eq, List.length_cons, UInt32.ofNat_add] at counted
      rw [perm.length_eq, nel]
      grind
  · rcases stands.of_missing missing with ⟨isContent, -⟩
    refine ⟨_, by rw [call, perform, missing.remove]; rfl, ?_⟩
    simp only [Ledger.act, isContent, Option.isSome_none, Bool.false_eq_true, if_false]
    exact stands.unchanged sepolEnoent

theorem Stands.replace (stands : state.Stands functions ledger) (key : Key) (datum : Datum) :
    ∃ last, state.call functions (.replace key datum) = some last ∧
      last.Stands functions (ledger.act (.replace key datum)) := by
  rcases stands.wellFormed.walk stands.suit key with
    ⟨chain, cur, next, others, found⟩ | ⟨chain, missing⟩
  · rcases stands.of_found found with ⟨isContent, besides⟩
    rcases found.replace datum with ⟨table, replaces, wellFormed, sameSize, perm, nel⟩
    refine ⟨_, by rw [call, perform, replaces]; rfl, ?_⟩
    simp only [Ledger.act, isContent, Option.isSome_some, if_true]
    refine ⟨sameSize ▸ stands.suit, wellFormed, besides.with perm, by rw [stands.returned], ?_, ?_⟩
    · exact perm_added perm (perm_destroyed found.listing stands.accounted)
    · have counted := stands.counted
      rw [found.listing.length_eq, List.length_cons] at counted
      rw [perm.length_eq, List.length_cons, nel, Nat.add_zero, counted]
  · rcases stands.of_missing missing with ⟨isContent, besides⟩
    rcases missing.replace datum with ⟨table, replaces, wellFormed, sameSize, perm, nel⟩
    refine ⟨_, by rw [call, perform, replaces]; rfl, ?_⟩
    simp only [Ledger.act, isContent, Option.isSome_none, Bool.false_eq_true, if_false]
    refine ⟨sameSize ▸ stands.suit, wellFormed, besides.with perm, by rw [stands.returned], ?_, ?_⟩
    · rw [List.append_nil]
      exact perm_added perm stands.accounted
    · have counted := stands.counted
      rw [perm.length_eq, List.length_cons, nel, UInt32.ofNat_add, UInt32.ofNat_add, ← counted]
      grind

theorem Stands.mapRemoveOnError (stands : state.Stands functions ledger)
    (apply : Key → Datum → Int) :
    ∃ last, state.call functions (.mapRemoveOnError apply) = some last ∧
      last.Stands functions (ledger.act (.mapRemoveOnError apply)) := by
  rcases stands.wellFormed.hashtabMapRemoveOnError apply with
    ⟨table, removes, wellFormed, sameSize, listing, nel⟩
  refine ⟨_, by rw [call, perform, removes]; rfl, ?_⟩
  refine ⟨sameSize ▸ stands.suit, wellFormed, ?_, ?_, ?_, ?_⟩
  · intro key datum
    have content := stands.content key datum
    simp only [listing, Ledger.act, List.mem_filter, content, decide_eq_true_eq,
      Option.filter_eq_some_iff]
  · simp only [Ledger.act, stands.returned]
  · simp only [Ledger.act, listing]
    exact perm_filtered _ stands.accounted
  · have counted := stands.counted
    have parts := (List.filter_append_perm
      (fun entry : Key × Datum => decide (apply entry.1 entry.2 = 0)) state.table.listing).length_eq
    rw [← parts, List.length_append, UInt32.ofNat_add] at counted
    simp only [Ledger.act, listing, nel]
    grind

theorem Stands.call (stands : state.Stands functions ledger) (call : HashtabCall Key Datum) :
    ∃ last, state.call functions call = some last ∧
      last.Stands functions (ledger.act call) := by
  cases call with
  | insert key datum => exact stands.insert key datum
  | remove key => exact stands.remove key
  | replace key datum => exact stands.replace key datum
  | mapRemoveOnError apply => exact stands.mapRemoveOnError apply

end HashtabUse

/-- Any sequence of calls on a new table stays inside the array and leaves a table that serves
as the map of the ledger. -/
theorem hashtab_runs_refine_map {size : UInt32} (suit : functions.Suit size)
    (calls : List (HashtabCall Key Datum)) :
    ∃ last, runSteps (HashtabUse.call functions) calls (HashtabUse.new size) = some last ∧
      last.Serves functions (calls.foldl Ledger.act Ledger.new) := by
  rcases runSteps_simulates (fun call _ _ stands => stands.call call) calls
    (HashtabUse.Stands.new suit) with ⟨last, ran, stands⟩
  exact ⟨last, ran, stands.serves⟩

theorem threeCalls_refine_map :
    ((0 : UInt32) < 16 ∧ (16 : UInt32).toNat ≤ 2 ^ 31) ∧
      ∃ last, runSteps (HashtabUse.call symtabFunctions)
          [.insert (ascii "su") 7, .replace (ascii "init") 8, .remove (ascii "su")]
          (HashtabUse.new 16) = some last ∧
        last.Serves symtabFunctions
          ([.insert (ascii "su") 7, .replace (ascii "init") 8, .remove (ascii "su")].foldl
            Ledger.act Ledger.new) :=
  ⟨by decide, hashtab_runs_refine_map (symtab_suit (by decide) (by decide)) _⟩

end Runs

/-! ## Symbol tables -/

section Symbols

variable {Datum : Type} {size : UInt32}

/-- A symbol is added to a table of the policy; the second part is what the calls return. -/
def addSymbol (size : UInt32) (tables : Hashtab Datum × List Int) (symbol : CString × Datum) :
    Hashtab Datum × List Int :=
  match hashtabInsert size tables.1 symbol.1 symbol.2 with
  | some h => (h, tables.2 ++ [sepolOk])
  | none => (tables.1, tables.2 ++ [sepolEexist])

/-- The nodes, slot by slot, are the entries of a table of the policy. -/
structure HashtabUse.Lists (size : UInt32) (state : HashtabUse CString Datum)
    (tables : Hashtab Datum × List Int) : Prop where
  wellFormed : state.table.WellFormed symtabFunctions
  sized : state.table.size = size
  listing : state.table.listing = tables.1.entries
  returned : state.returned = tables.2

namespace HashtabUse

variable {state : HashtabUse CString Datum} {tables : Hashtab Datum × List Int}

theorem Lists.search (lists : state.Lists size tables) (suit : symtabFunctions.Suit size)
    (key : CString) :
    state.table.hashtabSearch symtabFunctions key = some (hashtabSearch tables.1 key) := by
  rcases lists.wellFormed.walk (lists.sized ▸ suit) key with
    ⟨chain, cur, next, others, found⟩ | ⟨chain, missing⟩
  · have member : (key, cur.2) ∈ tables.1.entries := by
      rw [← lists.listing, found.listing.mem_iff, ← found.isKey]
      exact List.mem_cons_self
    rw [found.search, (hashtabSearch_eq_some_iff tables.1 key cur.2).mpr member]
  · have absent : key ∉ tables.1.entries.map Prod.fst := by
      intro member
      rcases List.mem_map.mp member with ⟨entry, inEntries, same⟩
      exact missing.different entry (lists.listing ▸ inEntries) same
    rw [missing.search, (hashtabSearch_eq_none_iff tables.1 key).mpr absent]

theorem Lists.insert (lists : state.Lists size tables) (suit : symtabFunctions.Suit size)
    (symbol : CString × Datum) :
    ∃ next, state.call symtabFunctions (.insert symbol.1 symbol.2) = some next ∧
      next.Lists size (addSymbol size tables symbol) := by
  have suitTable : symtabFunctions.Suit state.table.size := lists.sized ▸ suit
  rcases lists.wellFormed.atSlot suitTable symbol.1 with ⟨front, chain, back, atSlot⟩
  cases ends : HashtabVal.atKey symtabFunctions symbol.1 (reached strcmp symbol.1 chain) with
  | some pair =>
      have found := atSlot.found suitTable.orders ends
      have taken : symbol.1 ∈ tables.1.entries.map Prod.fst := by
        rw [← lists.listing]
        exact List.mem_map.mpr
          ⟨pair.1, found.listing.mem_iff.mpr List.mem_cons_self, found.isKey⟩
      refine ⟨_, by rw [call, HashtabVal.perform, found.insert]; rfl, ?_⟩
      rw [addSymbol, hashtabInsert, dif_neg (not_not.mpr taken)]
      exact { lists with returned := by rw [lists.returned] }
  | none =>
      have missing := atSlot.missing suitTable.orders ends
      have fresh : symbol.1 ∉ tables.1.entries.map Prod.fst := by
        intro member
        rcases List.mem_map.mp member with ⟨entry, inEntries, same⟩
        exact missing.different entry (lists.listing ▸ inEntries) same
      rcases atSlot.writes_new suitTable.orders ends symbol.2 with ⟨wellFormed, listing⟩
      refine ⟨_, by rw [call, HashtabVal.perform, missing.insert_eq]; rfl, ?_⟩
      rw [addSymbol, hashtabInsert, dif_pos fresh]
      refine ⟨wellFormed.counting _, lists.sized, ?_, by rw [lists.returned]⟩
      have inserted := atSlot.insertEntry_listing symbol.2 ends
      rw [lists.sized, lists.listing] at inserted
      exact listing.trans inserted.symm

theorem Lists.new (size : UInt32) :
    (HashtabUse.new size : HashtabUse CString Datum).Lists size (Hashtab.empty, []) where
  wellFormed := HashtabVal.wellFormed_create symtabFunctions size
  sized := rfl
  listing := HashtabVal.listing_create size
  returned := rfl

end HashtabUse

/-- However symbols are added to a new symbol table, its nodes, slot by slot, are the entries
of the policy table with these symbols, and it answers as that table does. -/
theorem symtab_lists_policy_table (positive : 0 < size) (small : size.toNat ≤ 2 ^ 31)
    (symbols : List (CString × Datum)) :
    ∃ last,
      runSteps (HashtabUse.call symtabFunctions)
          (symbols.map fun symbol => .insert symbol.1 symbol.2) (HashtabUse.new size) = some last ∧
        let tables := symbols.foldl (addSymbol size) (Hashtab.empty, [])
        last.table.listing = tables.1.entries ∧ last.returned = tables.2 ∧
          (∀ key, last.table.hashtabSearch symtabFunctions key =
            some (hashtabSearch tables.1 key)) ∧
          ∀ {Args : Type} (apply : CString → Datum → Args → Int × Args) (args : Args),
            last.table.hashtabMap apply args =
              some (HashtabVal.mapNodes apply tables.1.entries args) := by
  have suit := symtab_suit positive small
  rw [runSteps_map]
  have steps : ∀ (symbol : CString × Datum) (state : HashtabUse CString Datum)
      (tables : Hashtab Datum × List Int), state.Lists size tables →
        ∃ next, state.call symtabFunctions (.insert symbol.1 symbol.2) = some next ∧
          next.Lists size (addSymbol size tables symbol) :=
    fun symbol _ _ lists => lists.insert suit symbol
  rcases runSteps_simulates steps symbols (HashtabUse.Lists.new size) with ⟨last, ran, lists⟩
  refine ⟨last, ran, lists.listing, lists.returned, lists.search suit, ?_⟩
  intro Args apply args
  rw [← lists.listing]
  exact lists.wellFormed.hashtabMap apply args

theorem twoSymbols_list_policy_table :
    ((0 : UInt32) < 16 ∧ (16 : UInt32).toNat ≤ 2 ^ 31) ∧
      ∃ last,
        runSteps (HashtabUse.call symtabFunctions)
            ([(ascii "su", 7), (ascii "init", 8)].map fun symbol => .insert symbol.1 symbol.2)
            (HashtabUse.new 16) = some last ∧
          let tables := [(ascii "su", 7), (ascii "init", 8)].foldl (addSymbol 16)
            (Hashtab.empty, [])
          last.table.listing = tables.1.entries ∧ last.returned = tables.2 ∧
            (∀ key, last.table.hashtabSearch symtabFunctions key =
              some (hashtabSearch tables.1 key)) ∧
            ∀ {Args : Type} (apply : CString → Nat → Args → Int × Args) (args : Args),
              last.table.hashtabMap apply args =
                some (HashtabVal.mapNodes apply tables.1.entries args) :=
  ⟨by decide, symtab_lists_policy_table (by decide) (by decide)
    [(ascii "su", 7), (ascii "init", 8)]⟩

end Symbols

end SuBinary.Sepol
