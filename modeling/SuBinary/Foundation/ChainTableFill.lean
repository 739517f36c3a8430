import SuBinary.Foundation.ChainTable

/-! # Listing and filling hash tables with ordered chains

The nodes of a table can be listed slot by slot, and a table can be filled from such a list.
Nodes of one key and tag are found in the opposite order afterwards.
-/

namespace SuBinary.ChainTable

variable {Key Tag Datum : Type} [DecidableEq Key] [DecidableEq Tag]
  {before : Key → Key → Bool} {hash : Key → Nat} {shared : Tag → Bool}

def dataOf (key : Key) (tag : Tag) (nodes : List (Node Key Tag Datum)) : List Datum :=
  (entries key (· = tag) nodes).map (·.datum)

theorem dataOf_append (key : Key) (tag : Tag) (first second : List (Node Key Tag Datum)) :
    dataOf key tag (first ++ second) = dataOf key tag first ++ dataOf key tag second := by
  rw [dataOf, entries, List.filter_append, List.map_append]
  rfl

theorem dataOf_singleton (node : Node Key Tag Datum) (key : Key) (tag : Tag) :
    dataOf key tag [node] = if node.key = key ∧ node.tag = tag then [node.datum] else [] := by
  by_cases same : node.key = key ∧ node.tag = tag
  · simp [dataOf, entries, same]
  · simp [dataOf, entries, same]

theorem mem_dataOf {key : Key} {tag : Tag} {nodes : List (Node Key Tag Datum)} {datum : Datum} :
    datum ∈ dataOf key tag nodes ↔ ⟨key, tag, datum⟩ ∈ nodes := by
  rw [dataOf, List.mem_map]
  constructor
  · rintro ⟨⟨nodeKey, nodeTag, nodeDatum⟩, member, rfl⟩
    rcases List.mem_filter.mp member with ⟨inNodes, wanted⟩
    obtain ⟨rfl, rfl⟩ : nodeKey = key ∧ nodeTag = tag := by simpa using wanted
    exact inNodes
  · intro member
    exact ⟨_, List.mem_filter.mpr ⟨member, by simp⟩, rfl⟩

/-! ## Insertion -/

theorem exists_insertNode_shared (new : Node Key Tag Datum) (chain : List (Node Key Tag Datum)) :
    ∃ result, insertNode before true new chain = some result := by
  induction chain with
  | nil => exact ⟨[new], rfl⟩
  | cons node rest induction =>
      rcases induction with ⟨tail, inserted⟩
      rw [insertNode, inserted, if_pos rfl]
      split
      · exact ⟨_, rfl⟩
      · split
        · exact ⟨_, rfl⟩
        · exact ⟨_, rfl⟩

theorem htable_insert {table result : ChainTable Key Tag Datum before hash shared} {key : Key}
    {tag : Tag} {datum : Datum} (inserted : table.insert key tag datum = some result) :
    ∃ chain, insertNode before (shared tag) ⟨key, tag, datum⟩ (table.htable (hash key)) =
        some chain ∧ result.htable = Function.update table.htable (hash key) chain := by
  rw [insert] at inserted
  split at inserted
  · cases inserted
  · rename_i chain chainInserted
    cases inserted
    exact ⟨chain, chainInserted, rfl⟩

theorem insert_isSome_iff (table : ChainTable Key Tag Datum before hash shared) (key : Key)
    (tag : Tag) (datum : Datum) :
    (table.insert key tag datum).isSome ↔ shared tag = true ∨ table.data key tag = [] := by
  constructor
  · intro some
    rcases Option.isSome_iff_exists.mp some with ⟨result, inserted⟩
    cases mayRepeat : shared tag with
    | true => exact Or.inl rfl
    | false =>
        rcases htable_insert inserted with ⟨chain, chainInserted, -⟩
        rw [mayRepeat] at chainInserted
        have free := entries_eq_nil_of_insertNode (table.sorted _) chainInserted
        right
        rw [data, free, List.map_nil]
  · rintro (mayRepeat | free)
    · rcases exists_insertNode_shared ⟨key, tag, datum⟩ (table.htable (hash key)) with
        ⟨chain, chainInserted⟩
      rw [insert]
      split
      · rename_i refused
        rw [mayRepeat, chainInserted] at refused
        cases refused
      · rfl
    · rcases exists_insert free datum with ⟨result, inserted⟩
      rw [inserted]
      rfl

def insertAll (table : ChainTable Key Tag Datum before hash shared)
    (nodes : List (Node Key Tag Datum)) : Option (ChainTable Key Tag Datum before hash shared) :=
  nodes.foldlM (fun table node => table.insert node.key node.tag node.datum) table

theorem insertAll_cons (table : ChainTable Key Tag Datum before hash shared)
    (node : Node Key Tag Datum) (rest : List (Node Key Tag Datum)) :
    table.insertAll (node :: rest) =
      (table.insert node.key node.tag node.datum).bind fun next => next.insertAll rest :=
  rfl

/-- The data that come later in the list are found first. -/
theorem data_insertAll {table result : ChainTable Key Tag Datum before hash shared}
    {nodes : List (Node Key Tag Datum)} (inserted : table.insertAll nodes = some result)
    (key : Key) (tag : Tag) :
    result.data key tag = (dataOf key tag nodes).reverse ++ table.data key tag := by
  induction nodes generalizing table with
  | nil =>
      cases inserted
      rfl
  | cons node rest induction =>
      rw [insertAll_cons] at inserted
      rcases Option.bind_eq_some_iff.mp inserted with ⟨next, first, later⟩
      rw [induction later, data_insert first,
        show node :: rest = [node] ++ rest from rfl, dataOf_append, dataOf_singleton]
      by_cases same : node.key = key ∧ node.tag = tag
      · simp [same]
      · simp [same]

theorem insertAll_isSome_iff (table : ChainTable Key Tag Datum before hash shared)
    (nodes : List (Node Key Tag Datum)) :
    (table.insertAll nodes).isSome ↔ ∀ key tag, shared tag = false →
      (dataOf key tag nodes).length + (table.data key tag).length ≤ 1 := by
  induction nodes generalizing table with
  | nil =>
      refine iff_of_true rfl fun key tag exclusive => ?_
      have single := table.exclusive key tag exclusive
      rwa [dataOf, entries, List.filter_nil, List.map_nil, List.length_nil, Nat.zero_add, data,
        List.length_map]
  | cons node rest induction =>
      have split : ∀ key tag, (dataOf key tag (node :: rest)).length =
          (if node.key = key ∧ node.tag = tag then 1 else 0) + (dataOf key tag rest).length := by
        intro key tag
        rw [show node :: rest = [node] ++ rest from rfl, dataOf_append, dataOf_singleton,
          List.length_append]
        by_cases same : node.key = key ∧ node.tag = tag
        · simp [same]
        · simp [same]
      rw [insertAll_cons]
      cases inserted : table.insert node.key node.tag node.datum with
      | none =>
          have refused := (table.insert_isSome_iff node.key node.tag node.datum).not.mp
            (by rw [inserted]; simp)
          rcases not_or.mp refused with ⟨exclusive, taken⟩
          refine iff_of_false (by simp) fun allowed => ?_
          have atMostOne := allowed node.key node.tag (by simpa using exclusive)
          rw [split, if_pos ⟨rfl, rfl⟩] at atMostOne
          exact taken (List.length_eq_zero_iff.mp (by omega))
      | some next =>
          rw [Option.bind_some, induction next]
          apply forall_congr'
          intro key
          apply forall_congr'
          intro tag
          apply imp_congr_right
          intro exclusive
          rw [split, data_insert inserted]
          by_cases same : node.key = key ∧ node.tag = tag
          · rw [if_pos same, if_pos same, List.length_cons]
            omega
          · rw [if_neg same, if_neg same]
            omega

/-! ## Listing -/

def nodes (table : ChainTable Key Tag Datum before hash shared) (slots : Nat) :
    List (Node Key Tag Datum) :=
  (List.range slots).flatMap table.htable

theorem entries_flatMap_range (table : ChainTable Key Tag Datum before hash shared) (key : Key)
    (tag : Tag) (slots : Nat) :
    entries key (· = tag) (table.nodes slots) =
      if hash key < slots then entries key (· = tag) (table.htable (hash key)) else [] := by
  induction slots with
  | zero => rfl
  | succ slots induction =>
      have step : table.nodes (slots + 1) = table.nodes slots ++ table.htable slots := by
        rw [nodes, List.range_succ, List.flatMap_append, List.flatMap_singleton]
        rfl
      rw [step, entries, List.filter_append]
      change entries key (· = tag) (table.nodes slots) ++
        entries key (· = tag) (table.htable slots) = _
      rw [induction]
      by_cases here : hash key = slots
      · rw [if_neg (by omega), if_pos (by omega), here, List.nil_append]
      · have elsewhere : entries key (· = tag) (table.htable slots) = [] := by
          apply List.filter_eq_nil_iff.mpr
          intro node member wanted
          have sameKey : node.key = key := by simpa using (of_decide_eq_true wanted).1
          exact here (sameKey ▸ table.placed slots node member)
        rw [elsewhere, List.append_nil]
        by_cases earlier : hash key < slots
        · rw [if_pos earlier, if_pos (by omega)]
        · rw [if_neg earlier, if_neg (by omega)]

theorem dataOf_nodes (table : ChainTable Key Tag Datum before hash shared) {slots : Nat}
    (inRange : ∀ key, hash key < slots) (key : Key) (tag : Tag) :
    dataOf key tag (table.nodes slots) = table.data key tag := by
  rw [dataOf, entries_flatMap_range, if_pos (inRange key)]
  rfl

theorem perm_insertNode {mayRepeat : Bool} {new : Node Key Tag Datum}
    {chain result : List (Node Key Tag Datum)}
    (inserted : insertNode before mayRepeat new chain = some result) :
    result.Perm (new :: chain) := by
  induction chain generalizing result with
  | nil =>
      cases inserted
      exact List.Perm.refl _
  | cons head rest induction =>
      rw [insertNode] at inserted
      split at inserted
      · split at inserted
        · cases inserted
          exact List.Perm.refl _
        · cases inserted
      · split at inserted
        · cases inserted
          exact List.Perm.refl _
        · rcases Option.map_eq_some_iff.mp inserted with ⟨tail, tailInserted, rfl⟩
          exact ((induction tailInserted).cons head).trans (List.Perm.swap new head rest)

theorem flatMap_range_update_of_le {Item : Type} (slots : Nat) (chains : Nat → List Item)
    {slot : Nat} (outside : slots ≤ slot) (chain : List Item) :
    (List.range slots).flatMap (Function.update chains slot chain) =
      (List.range slots).flatMap chains := by
  apply List.flatMap_congr
  intro other member
  have below := List.mem_range.mp member
  exact Function.update_of_ne (by omega) _ _

theorem perm_flatMap_range_update {Item : Type} (slots : Nat) (chains : Nat → List Item)
    {slot : Nat} (inside : slot < slots) {chain : List Item} {item : Item}
    (added : chain.Perm (item :: chains slot)) :
    ((List.range slots).flatMap (Function.update chains slot chain)).Perm
      (item :: (List.range slots).flatMap chains) := by
  induction slots with
  | zero => exact absurd inside (Nat.not_lt_zero _)
  | succ slots induction =>
      simp only [List.range_succ, List.flatMap_append, List.flatMap_singleton]
      by_cases last : slot = slots
      · subst last
        rw [flatMap_range_update_of_le slot chains (Nat.le_refl slot), Function.update_self]
        exact (added.append_left _).trans List.perm_middle
      · rw [Function.update_of_ne (Ne.symm last)]
        exact (induction (by omega)).append_right _

theorem perm_nodes_insert {table result : ChainTable Key Tag Datum before hash shared} {key : Key}
    {tag : Tag} {datum : Datum} (inserted : table.insert key tag datum = some result)
    {slots : Nat} (inRange : hash key < slots) :
    (result.nodes slots).Perm (⟨key, tag, datum⟩ :: table.nodes slots) := by
  rcases htable_insert inserted with ⟨chain, chainInserted, isTable⟩
  rw [nodes, isTable]
  exact perm_flatMap_range_update slots table.htable inRange (perm_insertNode chainInserted)

end SuBinary.ChainTable
