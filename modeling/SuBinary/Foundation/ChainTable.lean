import Mathlib

/-! # Hash tables with ordered chains

Every slot of the table holds a chain of nodes in ascending key order, which
lets a search give up at the first node past its key. Several nodes may share a
key as long as their tags differ, and some tags may even repeat under one key.
Seen from outside, the table is a map from a key and a tag to the list of data
stored under them.
-/

namespace SuBinary.ChainTable

structure Node (Key Tag Datum : Type) where
  key : Key
  tag : Tag
  datum : Datum
deriving DecidableEq

structure StrictlyOrders (before : Key → Key → Bool) : Prop where
  irreflexive : ∀ key, before key key = false
  transitive : ∀ first second third, before first second = true →
    before second third = true → before first third = true

def Sorted (before : Key → Key → Bool) (chain : List (Node Key Tag Datum)) : Prop :=
  chain.Pairwise fun earlier later => before later.key earlier.key = false

section Chains

variable {Key Tag Datum : Type} [DecidableEq Key]
  (before : Key → Key → Bool)

/-- The nodes stored under `key` with a tag among `wanted`, in chain order. -/
def entries (key : Key) (wanted : Tag → Bool) (chain : List (Node Key Tag Datum)) :
    List (Node Key Tag Datum) :=
  chain.filter fun node => node.key = key ∧ wanted node.tag

/-- The rest of the chain from the first wanted node on; the walk gives up at
the first node past `key`. -/
def find (key : Key) (wanted : Tag → Bool) :
    List (Node Key Tag Datum) → List (Node Key Tag Datum)
  | [] => []
  | node :: rest =>
      if node.key = key ∧ wanted node.tag then node :: rest
      else if before key node.key then []
      else find key wanted rest

variable {before}

theorem entries_eq_nil_of_before {key : Key} {wanted : Tag → Bool}
    {node : Node Key Tag Datum} {rest : List (Node Key Tag Datum)}
    (sorted : Sorted before (node :: rest)) (past : before key node.key = true) :
    entries key wanted rest = [] := by
  apply List.filter_eq_nil_iff.mpr
  intro later member
  have order := (List.pairwise_cons.mp sorted).1 later member
  intro wantedLater
  have same : later.key = key := by simpa using (of_decide_eq_true wantedLater).1
  rw [same, past] at order
  cases order

theorem entries_find {key : Key} {wanted : Tag → Bool}
    {chain : List (Node Key Tag Datum)} (sorted : Sorted before chain) :
    entries key wanted (find before key wanted chain) = entries key wanted chain := by
  induction chain with
  | nil => rfl
  | cons node rest induction =>
      rw [find]
      by_cases found : node.key = key ∧ wanted node.tag = true
      · rw [if_pos found]
      · rw [if_neg found]
        have skip : entries key wanted (node :: rest) = entries key wanted rest := by
          simp [entries, found]
        rw [skip]
        by_cases past : before key node.key = true
        · rw [if_pos past, entries_eq_nil_of_before sorted past]
          rfl
        · rw [if_neg past]
          exact induction (List.pairwise_cons.mp sorted).2

theorem head?_find {key : Key} {wanted : Tag → Bool}
    {chain : List (Node Key Tag Datum)} (sorted : Sorted before chain) :
    (find before key wanted chain).head? = (entries key wanted chain).head? := by
  rw [← entries_find sorted]
  induction chain with
  | nil => rfl
  | cons node rest induction =>
      rw [find]
      by_cases found : node.key = key ∧ wanted node.tag = true
      · simp [entries, found]
      · rw [if_neg found]
        by_cases past : before key node.key = true
        · simp [if_pos past, entries]
        · rw [if_neg past]
          exact induction (List.pairwise_cons.mp sorted).2

variable (before) in
def visit (key : Key) (wanted : Tag → Bool) :
    List (Node Key Tag Datum) → List (Node Key Tag Datum)
  | [] => []
  | node :: rest =>
      if node.key = key ∧ wanted node.tag then node :: visit key wanted rest
      else if before key node.key then []
      else visit key wanted rest

theorem visit_eq_entries {key : Key} {wanted : Tag → Bool}
    {chain : List (Node Key Tag Datum)} (sorted : Sorted before chain) :
    visit before key wanted chain = entries key wanted chain := by
  induction chain with
  | nil => rfl
  | cons node rest induction =>
      have later := induction (List.pairwise_cons.mp sorted).2
      rw [visit]
      by_cases found : node.key = key ∧ wanted node.tag = true
      · rw [if_pos found, later]
        simp [entries, found]
      · have skip : entries key wanted (node :: rest) = entries key wanted rest := by
          simp [entries, found]
        rw [if_neg found, skip]
        by_cases past : before key node.key = true
        · rw [if_pos past, entries_eq_nil_of_before sorted past]
        · rw [if_neg past, later]

/-! ## Insertion -/

variable [DecidableEq Tag]

variable (before) in
/-- Insert before the first node of the same key and tag, or else before the
first node past the key. An existing node refuses the insertion unless nodes
of this tag may be `shared`. -/
def insertNode (shared : Bool) (new : Node Key Tag Datum) :
    List (Node Key Tag Datum) → Option (List (Node Key Tag Datum))
  | [] => some [new]
  | node :: rest =>
      if node.key = new.key ∧ node.tag = new.tag then
        if shared then some (new :: node :: rest) else none
      else if before new.key node.key then some (new :: node :: rest)
      else (insertNode shared new rest).map (node :: ·)

theorem mem_insertNode {shared : Bool}
    {new node : Node Key Tag Datum} {chain result : List (Node Key Tag Datum)}
    (inserted : insertNode before shared new chain = some result) :
    node ∈ result ↔ node = new ∨ node ∈ chain := by
  induction chain generalizing result with
  | nil =>
      cases inserted
      simp
  | cons head rest induction =>
      rw [insertNode] at inserted
      split at inserted
      · split at inserted
        · cases inserted
          simp
        · cases inserted
      · split at inserted
        · cases inserted
          simp
        · rcases Option.map_eq_some_iff.mp inserted with ⟨tail, tailInserted, rfl⟩
          simp only [List.mem_cons, induction tailInserted]
          tauto

theorem sorted_insertNode (orders : StrictlyOrders before) {shared : Bool}
    {new : Node Key Tag Datum}
    {chain result : List (Node Key Tag Datum)} (sorted : Sorted before chain)
    (inserted : insertNode before shared new chain = some result) :
    Sorted before result := by
  induction chain generalizing result with
  | nil =>
      cases inserted
      exact List.pairwise_singleton _ _
  | cons head rest induction =>
      have parts := List.pairwise_cons.mp sorted
      rw [insertNode] at inserted
      split at inserted
      · rename_i found
        split at inserted
        · cases inserted
          refine List.pairwise_cons.mpr ⟨?_, sorted⟩
          intro later member
          rw [← found.1]
          rcases List.mem_cons.mp member with rfl | member
          · exact orders.irreflexive _
          · exact parts.1 later member
        · cases inserted
      · split at inserted
        · rename_i past
          cases inserted
          refine List.pairwise_cons.mpr ⟨?_, sorted⟩
          intro later member
          by_contra notBehind
          have behind : before later.key new.key = true := by simpa using notBehind
          have smaller := orders.transitive _ _ _ behind past
          rcases List.mem_cons.mp member with rfl | member
          · rw [orders.irreflexive] at smaller
            cases smaller
          · rw [parts.1 later member] at smaller
            cases smaller
        · rename_i notPast
          rcases Option.map_eq_some_iff.mp inserted with ⟨tail, tailInserted, rfl⟩
          refine List.pairwise_cons.mpr ⟨?_, induction parts.2 tailInserted⟩
          intro later member
          rcases (mem_insertNode tailInserted).mp member with rfl | member
          · simpa using notPast
          · exact parts.1 later member

/-- Insertion puts the new node in front of the others of its key and tag and
leaves every other key and tag alone. -/
theorem entries_insertNode {shared : Bool} {new : Node Key Tag Datum}
    {chain result : List (Node Key Tag Datum)}
    (inserted : insertNode before shared new chain = some result)
    (key : Key) (tag : Tag) :
    entries key (· = tag) result =
      if new.key = key ∧ new.tag = tag then new :: entries key (· = tag) chain
      else entries key (· = tag) chain := by
  have front : ∀ others : List (Node Key Tag Datum),
      entries key (· = tag) (new :: others) =
        if new.key = key ∧ new.tag = tag then new :: entries key (· = tag) others
        else entries key (· = tag) others := by
    intro others
    simp [entries, List.filter_cons]
  induction chain generalizing result with
  | nil =>
      cases inserted
      exact front []
  | cons node rest induction =>
      rw [insertNode] at inserted
      split at inserted
      · split at inserted
        · cases inserted
          exact front _
        · cases inserted
      · rename_i different
        split at inserted
        · cases inserted
          exact front _
        · rcases Option.map_eq_some_iff.mp inserted with ⟨tail, tailInserted, rfl⟩
          have later := induction tailInserted
          simp only [entries, List.filter_cons] at later ⊢
          rw [later]
          by_cases same : new.key = key ∧ new.tag = tag
          · rcases same with ⟨rfl, rfl⟩
            simp [different]
          · simp [same]

theorem insertNode_of_entries_eq_nil {shared : Bool} {new : Node Key Tag Datum}
    {chain : List (Node Key Tag Datum)}
    (fresh : entries new.key (· = new.tag) chain = []) :
    ∃ result, insertNode before shared new chain = some result := by
  induction chain with
  | nil => exact ⟨[new], rfl⟩
  | cons node rest induction =>
      have different : ¬(node.key = new.key ∧ node.tag = new.tag) := by
        intro same
        simp [entries, same] at fresh
      rw [insertNode, if_neg different]
      split
      · exact ⟨_, rfl⟩
      · have later : entries new.key (· = new.tag) rest = [] := by
          simpa [entries, List.filter_cons, different] using fresh
        rcases induction later with ⟨tail, inserted⟩
        exact ⟨node :: tail, by rw [inserted]; rfl⟩

theorem entries_eq_nil_of_insertNode {new : Node Key Tag Datum}
    {chain result : List (Node Key Tag Datum)} (sorted : Sorted before chain)
    (inserted : insertNode before false new chain = some result) :
    entries new.key (· = new.tag) chain = [] := by
  induction chain generalizing result with
  | nil => rfl
  | cons node rest induction =>
      rw [insertNode] at inserted
      split at inserted
      · cases inserted
      · rename_i different
        have skip : entries new.key (· = new.tag) (node :: rest) =
            entries new.key (· = new.tag) rest := by
          simp [entries, different]
        rw [skip]
        split at inserted
        · rename_i past
          exact entries_eq_nil_of_before sorted past
        · rcases Option.map_eq_some_iff.mp inserted with ⟨tail, tailInserted, _⟩
          exact induction (List.pairwise_cons.mp sorted).2 tailInserted

/-! ## Modification -/

variable (before) in
def modifyNode (key : Key) (tag : Tag) (change : Datum → Datum) :
    List (Node Key Tag Datum) → List (Node Key Tag Datum)
  | [] => []
  | node :: rest =>
      if node.key = key ∧ node.tag = tag then
        { node with datum := change node.datum } :: rest
      else if before key node.key then node :: rest
      else node :: modifyNode key tag change rest

theorem modifyNode_keys (key : Key) (tag : Tag) (change : Datum → Datum)
    (chain : List (Node Key Tag Datum)) :
    (modifyNode before key tag change chain).map (·.key) = chain.map (·.key) := by
  induction chain with
  | nil => rfl
  | cons node rest induction =>
      rw [modifyNode]
      split
      · rfl
      · split
        · rfl
        · simp [induction]

theorem sorted_modifyNode {key : Key} {tag : Tag} {change : Datum → Datum}
    {chain : List (Node Key Tag Datum)} (sorted : Sorted before chain) :
    Sorted before (modifyNode before key tag change chain) := by
  have byKeys : ∀ nodes : List (Node Key Tag Datum), Sorted before nodes ↔
      (nodes.map (·.key)).Pairwise fun earlier later => before later earlier = false :=
    fun nodes => by rw [List.pairwise_map]; rfl
  rw [byKeys, modifyNode_keys, ← byKeys]
  exact sorted

theorem entries_modifyNode {chain : List (Node Key Tag Datum)}
    (sorted : Sorted before chain) (key other : Key) (tag otherTag : Tag)
    (change : Datum → Datum) :
    entries other (· = otherTag) (modifyNode before key tag change chain) =
      if key = other ∧ tag = otherTag then
        (entries other (· = otherTag) chain).modifyHead
          fun node => { node with datum := change node.datum }
      else entries other (· = otherTag) chain := by
  induction chain with
  | nil =>
      split
      · rfl
      · rfl
  | cons node rest induction =>
      have tailSorted : Sorted before rest := (List.pairwise_cons.mp sorted).2
      rw [modifyNode]
      by_cases found : node.key = key ∧ node.tag = tag
      · rw [if_pos found]
        rcases found with ⟨rfl, rfl⟩
        by_cases same : node.key = other ∧ node.tag = otherTag
        · simp [entries, same]
        · simp [entries, same]
      · rw [if_neg found]
        by_cases past : before key node.key = true
        · rw [if_pos past]
          split
          · rename_i same
            rcases same with ⟨rfl, rfl⟩
            have noneBehind : entries key (· = tag) rest = [] :=
              entries_eq_nil_of_before sorted past
            have nothing : entries key (· = tag) (node :: rest) = [] := by
              simpa [entries, List.filter_cons, found] using noneBehind
            rw [nothing]
            rfl
          · rfl
        · rw [if_neg past]
          have later := induction tailSorted
          simp only [entries, List.filter_cons] at later ⊢
          rw [later]
          by_cases same : key = other ∧ tag = otherTag
          · rcases same with ⟨rfl, rfl⟩
            simp [found]
          · simp [same]

end Chains

/-! ## Tables -/

end SuBinary.ChainTable

namespace SuBinary

open ChainTable

/-- A table of ordered chains. `shared` are the tags that may repeat under one
key. -/
structure ChainTable (Key Tag Datum : Type) [DecidableEq Key] [DecidableEq Tag]
    (before : Key → Key → Bool) (hash : Key → Nat) (shared : Tag → Bool) where
  htable : Nat → List (Node Key Tag Datum)
  orders : StrictlyOrders before
  sorted : ∀ slot, Sorted before (htable slot)
  placed : ∀ slot node, node ∈ htable slot → hash node.key = slot
  exclusive : ∀ key tag, shared tag = false →
    (entries key (· = tag) (htable (hash key))).length ≤ 1

namespace ChainTable

section Tables

variable {Key Tag Datum : Type} [DecidableEq Key] [DecidableEq Tag]
  {before : Key → Key → Bool} {hash : Key → Nat} {shared : Tag → Bool}

/-- The data stored under a key and tag, the one a search finds first in
front. -/
def data (table : ChainTable Key Tag Datum before hash shared) (key : Key) (tag : Tag) :
    List Datum :=
  (entries key (· = tag) (table.htable (hash key))).map (·.datum)

def searchNode (table : ChainTable Key Tag Datum before hash shared) (key : Key)
    (wanted : Tag → Bool) : List (Node Key Tag Datum) :=
  find before key wanted (table.htable (hash key))

def search (table : ChainTable Key Tag Datum before hash shared) (key : Key) (tag : Tag) :
    Option Datum :=
  (table.searchNode key (· = tag)).head?.map (·.datum)

theorem search_eq_head? (table : ChainTable Key Tag Datum before hash shared)
    (key : Key) (tag : Tag) : table.search key tag = (table.data key tag).head? := by
  rw [search, searchNode, head?_find (table.sorted _), data, List.head?_map]

def replaceChain (table : ChainTable Key Tag Datum before hash shared) (slot : Nat)
    (chain : List (Node Key Tag Datum)) (sorted : Sorted before chain)
    (placed : ∀ node, node ∈ chain → hash node.key = slot)
    (exclusive : ∀ key tag, hash key = slot → shared tag = false →
      (entries key (· = tag) chain).length ≤ 1) :
    ChainTable Key Tag Datum before hash shared where
  htable := Function.update table.htable slot chain
  orders := table.orders
  sorted other := by
    by_cases same : other = slot
    · subst other
      simpa using sorted
    · simpa [same] using table.sorted other
  placed other node member := by
    by_cases same : other = slot
    · subst other
      exact placed node (by simpa using member)
    · exact table.placed other node (by simpa [same] using member)
  exclusive key tag unshared := by
    by_cases same : hash key = slot
    · simpa [same] using exclusive key tag same unshared
    · simpa [same] using table.exclusive key tag unshared

theorem data_replaceChain (table : ChainTable Key Tag Datum before hash shared)
    {slot : Nat} {chain : List (Node Key Tag Datum)} (sorted : Sorted before chain)
    (placed : ∀ node, node ∈ chain → hash node.key = slot)
    (exclusive : ∀ key tag, hash key = slot → shared tag = false →
      (entries key (· = tag) chain).length ≤ 1) (key : Key) (tag : Tag) :
    (table.replaceChain slot chain sorted placed exclusive).data key tag =
      if hash key = slot then (entries key (· = tag) chain).map (·.datum)
      else table.data key tag := by
  by_cases same : hash key = slot
  · simp [data, replaceChain, same]
  · simp [data, replaceChain, same]

/-- Insert a datum; `none` when an exclusive key and tag is taken. -/
def insert (table : ChainTable Key Tag Datum before hash shared) (key : Key) (tag : Tag)
    (datum : Datum) : Option (ChainTable Key Tag Datum before hash shared) :=
  match inserted : insertNode before (shared tag) ⟨key, tag, datum⟩
      (table.htable (hash key)) with
  | none => none
  | some chain =>
      some <| table.replaceChain (hash key) chain
        (sorted_insertNode table.orders (table.sorted _) inserted)
        (by
          intro node member
          rcases (mem_insertNode inserted).mp member with rfl | member
          · rfl
          · exact table.placed _ node member)
        (by
          intro other otherTag sameSlot unshared
          have before' := table.exclusive other otherTag unshared
          rw [sameSlot] at before'
          rw [entries_insertNode inserted]
          split
          · rename_i same
            rcases same with ⟨rfl, rfl⟩
            dsimp only at unshared
            rw [unshared] at inserted
            rw [entries_eq_nil_of_insertNode (table.sorted _) inserted]
            simp
          · exact before')

theorem data_insert {table result : ChainTable Key Tag Datum before hash shared}
    {key : Key} {tag : Tag} {datum : Datum}
    (inserted : table.insert key tag datum = some result) (other : Key) (otherTag : Tag) :
    result.data other otherTag =
      if key = other ∧ tag = otherTag then datum :: table.data other otherTag
      else table.data other otherTag := by
  rw [insert] at inserted
  split at inserted
  · cases inserted
  · rename_i chain chainInserted
    cases inserted
    rw [data_replaceChain]
    by_cases sameSlot : hash other = hash key
    · rw [if_pos sameSlot, entries_insertNode chainInserted]
      by_cases same : key = other ∧ tag = otherTag
      · simp [same, data, sameSlot]
      · simp [same, data, sameSlot]
    · have different : ¬(key = other ∧ tag = otherTag) := by
        rintro ⟨rfl, -⟩
        exact sameSlot rfl
      rw [if_neg sameSlot, if_neg different]

theorem exists_insert {table : ChainTable Key Tag Datum before hash shared} {key : Key}
    {tag : Tag} (fresh : table.data key tag = []) (datum : Datum) :
    ∃ result, table.insert key tag datum = some result := by
  have noEntries : entries key (· = tag) (table.htable (hash key)) = [] := by
    simpa [data] using fresh
  rw [insert]
  split
  · rename_i refused
    obtain ⟨chain, inserted⟩ : ∃ chain, insertNode before (shared tag)
        ⟨key, tag, datum⟩ (table.htable (hash key)) = some chain :=
      insertNode_of_entries_eq_nil noEntries
    rw [inserted] at refused
    cases refused
  · exact ⟨_, rfl⟩

def modify (table : ChainTable Key Tag Datum before hash shared) (key : Key) (tag : Tag)
    (change : Datum → Datum) : ChainTable Key Tag Datum before hash shared :=
  table.replaceChain (hash key)
    (modifyNode before key tag change (table.htable (hash key)))
    (sorted_modifyNode (table.sorted _))
    (by
      intro node member
      have keyMember : node.key ∈ (modifyNode before key tag change
          (table.htable (hash key))).map (·.key) := List.mem_map.mpr ⟨node, member, rfl⟩
      rw [modifyNode_keys] at keyMember
      rcases List.mem_map.mp keyMember with ⟨original, originalMember, sameKey⟩
      rw [← sameKey]
      exact table.placed _ original originalMember)
    (by
      intro other otherTag sameSlot unshared
      have single := table.exclusive other otherTag unshared
      rw [sameSlot] at single
      rw [entries_modifyNode (table.sorted _)]
      split
      · simpa using single
      · exact single)

theorem data_modify (table : ChainTable Key Tag Datum before hash shared) (key other : Key)
    (tag otherTag : Tag) (change : Datum → Datum) :
    (table.modify key tag change).data other otherTag =
      if key = other ∧ tag = otherTag then (table.data other otherTag).modifyHead change
      else table.data other otherTag := by
  rw [modify, data_replaceChain]
  by_cases sameSlot : hash other = hash key
  · rw [if_pos sameSlot, entries_modifyNode (table.sorted _), data, sameSlot]
    split
    · generalize entries other (· = otherTag) (table.htable (hash key)) = nodes
      cases nodes with
      | nil => rfl
      | cons node rest => rfl
    · rfl
  · have different : ¬(key = other ∧ tag = otherTag) := by
      rintro ⟨rfl, -⟩
      exact sameSlot rfl
    rw [if_neg sameSlot, if_neg different]

/-- Find-or-insert: change the datum a search finds, or insert the changed
initial datum when there is none. -/
def upsert (table : ChainTable Key Tag Datum before hash shared) (key : Key) (tag : Tag)
    (initial : Datum) (change : Datum → Datum) :
    ChainTable Key Tag Datum before hash shared :=
  match table.search key tag with
  | none => (table.insert key tag (change initial)).getD table
  | some _ => table.modify key tag change

theorem data_upsert (table : ChainTable Key Tag Datum before hash shared) (key other : Key)
    (tag otherTag : Tag) (initial : Datum) (change : Datum → Datum) :
    (table.upsert key tag initial change).data other otherTag =
      if key = other ∧ tag = otherTag then
        change ((table.data other otherTag).headD initial) ::
          (table.data other otherTag).tail
      else table.data other otherTag := by
  have searched := table.search_eq_head? key tag
  rw [upsert]
  cases stored : table.data key tag with
  | nil =>
      rw [stored] at searched
      rcases exists_insert stored (change initial) with ⟨result, inserted⟩
      simp only [searched, List.head?_nil, inserted, Option.getD_some]
      rw [data_insert inserted]
      by_cases same : key = other ∧ tag = otherTag
      · rcases same with ⟨rfl, rfl⟩
        simp [stored]
      · simp [same]
  | cons datum rest =>
      rw [stored] at searched
      simp only [searched, List.head?_cons, data_modify]
      by_cases same : key = other ∧ tag = otherTag
      · rcases same with ⟨rfl, rfl⟩
        simp [stored]
      · simp [same]

end Tables

end ChainTable

end SuBinary
