import SuBinary.Foundation.Ring

/-! # Linked lists

`list.h` and `list.c`. A list is a ring of nodes through its head; here the rings of all
lists in a heap are compared with sequences.
-/

namespace SuBinary.Utils

open SuBinary

variable {Node : Type} [DecidableEq Node]

/-! ## Operations -/

/-- `node->next = value;` -/
def setNext (links : Links Node) (node value : Node) : Links Node :=
  Function.update links node { links node with next := value }

/-- `node->prev = value;` -/
def setPrev (links : Links Node) (node value : Node) : Links Node :=
  Function.update links node { links node with prev := value }

def initListHead (links : Links Node) (head : Node) : Links Node :=
  let links := setNext links head head
  setPrev links head head

def listInsert (links : Links Node) (pos node : Node) : Links Node :=
  let links := setNext links node (links pos).next
  let links := setPrev links node pos
  let links := setPrev links (links pos).next node
  setNext links pos node

def listInsertEnd (links : Links Node) (head node : Node) : Links Node :=
  listInsert links (links head).prev node

/-- The results are the node that is returned and the heap. -/
def listPop (links : Links Node) (pos : Node) : Node × Links Node :=
  let ret := (links pos).prev
  let links := setNext links (links pos).prev (links pos).next
  let links := setPrev links (links pos).next (links pos).prev
  let links := setNext links pos pos
  let links := setPrev links pos pos
  (ret, links)

def listPopEnd (links : Links Node) (head : Node) : Node × Links Node :=
  listPop links (links head).prev

inductive ListOp (Node : Type)
  | init (head : Node)
  | insert (pos node : Node)
  | insertEnd (head node : Node)
  | pop (pos : Node)
  | popEnd (head : Node)

def ListOp.run (links : Links Node) : ListOp Node → Option Node × Links Node
  | .init head => (none, initListHead links head)
  | .insert pos node => (none, listInsert links pos node)
  | .insertEnd head node => (none, listInsertEnd links head node)
  | .pop pos => (some (listPop links pos).1, (listPop links pos).2)
  | .popEnd head => (some (listPopEnd links head).1, (listPopEnd links head).2)

def runOps (ops : List (ListOp Node)) (links : Links Node) : Links Node :=
  ops.foldl (fun links op => (op.run links).2) links

/-! ## Sequences -/

/-- The lists that there are: the sequence of members of each head. -/
abbrev Lists (Node : Type) : Type := Node → Option (List Node)

def InList (lists : Lists Node) (node : Node) : Prop :=
  ∃ head members, lists head = some members ∧ node ∈ head :: members

def insertAfter (pos node : Node) : List Node → List Node
  | [] => []
  | first :: rest =>
      if first = pos then first :: node :: rest else first :: insertAfter pos node rest

/-- The lists after a node has become the head of an empty list. A list that it was in is
a list no longer. -/
def Lists.initialise (lists : Lists Node) (node : Node) : Lists Node := fun head =>
  if head = node then some []
  else (lists head).bind fun members => if node ∈ members then none else some members

/-- What the operations do to the sequences: an inserted node is in no list, and a node
that is popped is a member of one. -/
inductive ListOp.Acts : ListOp Node → Lists Node → Lists Node → Prop
  | init {lists : Lists Node} (head : Node) : Acts (.init head) lists (lists.initialise head)
  | insert {lists : Lists Node} {head pos node : Node} {members : List Node}
      (isList : lists head = some members) (member : pos ∈ head :: members)
      (fresh : ¬InList lists node) :
      Acts (.insert pos node) lists
        (Function.update lists head (some (insertAfter pos node (head :: members)).tail))
  | insertEnd {lists : Lists Node} {head node : Node} {members : List Node}
      (isList : lists head = some members) (fresh : ¬InList lists node) :
      Acts (.insertEnd head node) lists (Function.update lists head (some (members ++ [node])))
  | pop {lists : Lists Node} {head pos : Node} {members : List Node}
      (isList : lists head = some members) (member : pos ∈ members) :
      Acts (.pop pos) lists (Function.update lists head (some (members.erase pos)))
  | popEnd {lists : Lists Node} {head : Node} {members : List Node}
      (isList : lists head = some members) (nonempty : members ≠ []) :
      Acts (.popEnd head) lists (Function.update lists head (some members.dropLast))

/-- The lists after a sequence of operations, from a heap in which there are none. -/
inductive ActsAll : List (ListOp Node) → Lists Node → Prop
  | nil : ActsAll [] fun _ => none
  | concat {ops : List (ListOp Node)} {op : ListOp Node} {lists next : Lists Node}
      (earlier : ActsAll ops lists) (acts : op.Acts lists next) : ActsAll (ops ++ [op]) next

/-! ## What the operations do to the pointers -/

section Pointers

variable (links : Links Node) (node value other : Node)

theorem setNext_next : (setNext links node value other).next =
    if other = node then value else (links other).next := by
  by_cases same : other = node
  · subst same
    simp [setNext]
  · simp [setNext, same]

theorem setNext_prev : (setNext links node value other).prev = (links other).prev := by
  by_cases same : other = node
  · subst same
    simp [setNext]
  · simp [setNext, same]

theorem setPrev_next : (setPrev links node value other).next = (links other).next := by
  by_cases same : other = node
  · subst same
    simp [setPrev]
  · simp [setPrev, same]

theorem setPrev_prev : (setPrev links node value other).prev =
    if other = node then value else (links other).prev := by
  by_cases same : other = node
  · subst same
    simp [setPrev]
  · simp [setPrev, same]

end Pointers

section Effects

variable {links : Links Node} {head pos node after before : Node}

theorem initListHead_head (links : Links Node) (head : Node) :
    initListHead links head head = { next := head, prev := head } := by
  simp [initListHead, setNext, setPrev]

theorem initListHead_of_ne (different : node ≠ head) :
    initListHead links head node = links node := by
  simp [initListHead, setNext, setPrev, different]

theorem listInsert_inserted (isAfter : (links pos).next = after) (posNode : pos ≠ node) :
    Inserted links (listInsert links pos node) pos node after where
  next := by
    intro other
    simp only [listInsert, setNext_next, setPrev_next, isAfter]
  prev := by
    intro other
    simp only [listInsert, setNext_prev, setPrev_prev, setPrev_next, setNext_next, isAfter,
      if_neg posNode]

theorem listPop_removed (isBefore : (links pos).prev = before) (isAfter : (links pos).next = after)
    (notBefore : before ≠ pos) : Removed links (listPop links pos).2 before pos after where
  next := by
    intro other
    simp only [listPop, setNext_next, setPrev_next, isBefore, isAfter]
  prev := by
    intro other
    simp only [listPop, setNext_prev, setPrev_prev, setNext_next, isBefore, isAfter,
      if_neg (Ne.symm notBefore)]

end Effects

/-! ## Rings and sequences -/

structure WellFormed (lists : Lists Node) : Prop where
  nodup : ∀ head members, lists head = some members → (head :: members).Nodup
  apart : ∀ head members other others, lists head = some members → lists other = some others →
    ∀ node, node ∈ head :: members → node ∈ other :: others → head = other

structure Represents (links : Links Node) (lists : Lists Node) : Prop where
  wellFormed : WellFormed lists
  ring : ∀ head members, lists head = some members → Ring links head members

omit [DecidableEq Node] in
theorem represents_none (links : Links Node) : Represents links fun _ => none where
  wellFormed :=
    ⟨fun _ _ isList => (by cases isList), fun _ _ _ _ isList => (by cases isList)⟩
  ring := fun _ _ isList => by cases isList

section Steps

variable {links changed : Links Node} {lists next : Lists Node} {head pos node : Node}
  {members : List Node}

theorem Represents.update (represents : Represents links lists) (isList : lists head = some members)
    {changedMembers : List Node} (nodup : (head :: changedMembers).Nodup)
    (members_or_fresh : ∀ other, other ∈ head :: changedMembers →
      other ∈ head :: members ∨ ¬InList lists other)
    (ring : Ring changed head changedMembers)
    (untouched : ∀ other, other ∉ head :: members → InList lists other →
      changed other = links other) :
    Represents changed (Function.update lists head (some changedMembers)) := by
  have wellFormed := represents.wellFormed
  have otherList : ∀ other others, Function.update lists head (some changedMembers) other =
      some others → (other = head ∧ others = changedMembers) ∨
        (other ≠ head ∧ lists other = some others) := by
    intro other others isOther
    by_cases same : other = head
    · subst same
      rw [Function.update_self, Option.some.injEq] at isOther
      exact Or.inl ⟨rfl, isOther.symm⟩
    · rw [Function.update_of_ne same] at isOther
      exact Or.inr ⟨same, isOther⟩
  have notShared : ∀ other others, other ≠ head → lists other = some others →
      ∀ node, node ∈ other :: others → node ∉ head :: changedMembers := by
    intro other others different isOther node member memberToo
    rcases members_or_fresh node memberToo with inside | fresh
    · exact different
        (wellFormed.apart other others head members isOther isList node member inside)
    · exact fresh ⟨other, others, isOther, member⟩
  refine ⟨⟨fun other others isOther => ?_,
    fun one ones two twos isOne isTwo node inOne inTwo => ?_⟩, fun other others isOther => ?_⟩
  · rcases otherList other others isOther with ⟨rfl, rfl⟩ | ⟨-, isOther⟩
    · exact nodup
    · exact wellFormed.nodup other others isOther
  · rcases otherList one ones isOne with ⟨rfl, rfl⟩ | ⟨oneApart, wasOne⟩
    · rcases otherList two twos isTwo with ⟨rfl, -⟩ | ⟨twoApart, wasTwo⟩
      · rfl
      · exact absurd inOne (notShared two twos twoApart wasTwo node inTwo)
    · rcases otherList two twos isTwo with ⟨rfl, rfl⟩ | ⟨twoApart, wasTwo⟩
      · exact absurd inTwo (notShared one ones oneApart wasOne node inOne)
      · exact wellFormed.apart one ones two twos wasOne wasTwo node inOne inTwo
  · rcases otherList other others isOther with ⟨rfl, rfl⟩ | ⟨apart, isOther⟩
    · exact ring
    · apply (represents.ring other others isOther).congr
      intro node member
      refine untouched node (fun inside => ?_) ⟨other, others, isOther, member⟩
      exact apart (wellFormed.apart other others head members isOther isList node member inside)

theorem insertAfter_eq {front : List Node} (first : pos ∉ front) (back : List Node) (node : Node) :
    insertAfter pos node (front ++ pos :: back) = front ++ pos :: node :: back := by
  induction front with
  | nil => rw [List.nil_append, insertAfter, if_pos rfl, List.nil_append]
  | cons other front induction =>
      have different : other ≠ pos := fun same => first (same ▸ List.mem_cons_self)
      rw [List.cons_append, insertAfter, if_neg different,
        induction fun member => first (List.mem_cons_of_mem _ member), List.cons_append]

theorem Represents.insert (represents : Represents links lists) (isList : lists head = some members)
    {front back : List Node} (split : head :: members = front ++ pos :: back)
    (fresh : ¬InList lists node) {changedMembers : List Node}
    (result : head :: changedMembers = front ++ pos :: node :: back) :
    Represents (listInsert links pos node)
        (Function.update lists head (some changedMembers)) ∧
      ∀ other, other ∉ head :: members → InList lists other →
        listInsert links pos node other = links other := by
  have nodup := represents.wellFormed.nodup head members isList
  have ring := represents.ring head members isList
  have notMember : node ∉ head :: members := fun member => fresh ⟨head, members, isList, member⟩
  rcases exists_after back head with ⟨after, rest, isAfter⟩
  have isPos : pos ∈ head :: members := by
    rw [split]
    simp
  have isAfterMember : after ∈ head :: members := by
    have member : after ∈ back ++ [head] := isAfter ▸ List.mem_cons_self
    rcases List.mem_append.mp member with inBack | isHead
    · rw [split]
      simp [inBack]
    · rw [List.mem_singleton.mp isHead]
      exact List.mem_cons_self
  have posNode : pos ≠ node := fun same => notMember (same ▸ isPos)
  have inserted := listInsert_inserted (ring.link split isAfter).1 posNode
  have untouched : ∀ other, other ∉ head :: members → InList lists other →
      listInsert links pos node other = links other := by
    intro other outside inList
    apply inserted.apart
    · exact fun same => outside (same ▸ isPos)
    · exact fun same => fresh (same ▸ inList)
    · exact fun same => outside (same ▸ isAfterMember)
  have isCircuit : circuit head members = front ++ pos :: after :: rest := by
    rw [circuit_eq split, isAfter]
  have inCircuit : ∀ other, other ∈ circuit head members → other ∈ head :: members := by
    intro other member
    simp only [circuit, List.mem_cons, List.mem_append, List.not_mem_nil, or_false] at member ⊢
    tauto
  refine ⟨represents.update isList ?_ ?_ ?_ untouched, untouched⟩
  · have moved : (front ++ pos :: node :: back).Perm (node :: (front ++ pos :: back)) := by
      rw [List.append_cons front pos (node :: back), List.append_cons front pos back]
      exact List.perm_middle
    rw [result, moved.nodup_iff, ← split, List.nodup_cons]
    exact ⟨notMember, nodup⟩
  · intro other member
    rw [result] at member
    rw [split]
    by_cases same : other = node
    · exact Or.inr (same ▸ fresh)
    · left
      simp only [List.mem_append, List.mem_cons] at member ⊢
      tauto
  · have chain : (front ++ pos :: after :: rest).IsChain (Link links) := isCircuit ▸ ring
    have simple : Simple (front ++ pos :: after :: rest) := isCircuit ▸ simple_circuit nodup
    rw [Ring, circuit, ← List.cons_append, result, List.append_assoc]
    rw [List.cons_append, List.cons_append, isAfter]
    refine inserted.isChain chain simple fun member => ?_
    exact notMember (inCircuit node (isCircuit ▸ member))

omit [DecidableEq Node] in
/-- The last node of the ring, which may be the head, is behind the head. -/
theorem Represents.last (represents : Represents links lists) (isList : lists head = some members)
    {front : List Node} (split : head :: members = front ++ [pos]) : (links head).prev = pos :=
  ((represents.ring head members isList).link split rfl).2

theorem Represents.pop (represents : Represents links lists) (isList : lists head = some members)
    {front back : List Node} {before : Node}
    (split : head :: members = front ++ before :: pos :: back) {changedMembers : List Node}
    (result : head :: changedMembers = front ++ before :: back) :
    Represents (listPop links pos).2 (Function.update lists head (some changedMembers)) ∧
      (∀ other, other ∉ head :: members → (listPop links pos).2 other = links other) ∧
      (listPop links pos).1 = before ∧
      (listPop links pos).2 pos = { next := pos, prev := pos } := by
  have nodup := represents.wellFormed.nodup head members isList
  have ring := represents.ring head members isList
  have splitPos : head :: members = (front ++ [before]) ++ pos :: back := by
    rw [split, List.append_cons]
  rcases exists_after back head with ⟨after, rest, isAfter⟩
  have isCircuit : circuit head members = front ++ before :: pos :: after :: rest := by
    rw [circuit_eq split, List.cons_append, isAfter]
  have simple : Simple (front ++ before :: pos :: after :: rest) :=
    isCircuit ▸ simple_circuit nodup
  have linkBefore : Link links before pos := ring.link split rfl
  have linkAfter : Link links pos after := ring.link splitPos isAfter
  have notBefore : before ≠ pos := by
    have once := simple.left
    rw [dropLast_append_cons] at once
    rintro rfl
    exact (List.nodup_cons.mp (List.nodup_append.mp once).2.1).1 List.mem_cons_self
  have notAfter : after ≠ pos := by
    have once := simple.entered
    rw [tail_append_cons] at once
    rintro rfl
    exact (List.nodup_cons.mp (List.nodup_append.mp once).2.1).1 List.mem_cons_self
  have isMember : ∀ other, other ∈ front ++ before :: pos :: after :: rest →
      other ∈ head :: members := by
    intro other member
    rw [← isCircuit] at member
    simp only [circuit, List.mem_cons, List.mem_append, List.not_mem_nil, or_false] at member ⊢
    tauto
  have removed := listPop_removed linkBefore.2 linkAfter.1 notBefore
  have untouched : ∀ other, other ∉ head :: members →
      (listPop links pos).2 other = links other := by
    intro other outside
    apply removed.apart
    · rintro rfl
      exact outside (isMember other (by simp))
    · rintro rfl
      exact outside (isMember other (by simp))
    · rintro rfl
      exact outside (isMember other (by simp))
  refine ⟨represents.update isList ?_ ?_ ?_ fun other outside _ => untouched other outside,
    untouched, linkBefore.2, removed.singleton⟩
  · have shorter : (front ++ before :: back).Sublist (head :: members) := by
      rw [split]
      exact (List.Sublist.refl front).append ((List.sublist_cons_self pos back).cons_cons before)
    rw [result]
    exact nodup.sublist shorter
  · intro other member
    left
    rw [result] at member
    rw [split]
    simp only [List.mem_append, List.mem_cons] at member ⊢
    tauto
  · have chain : (front ++ before :: pos :: after :: rest).IsChain (Link links) := isCircuit ▸ ring
    rw [Ring, circuit_eq result, isAfter]
    exact removed.isChain chain simple notBefore notAfter

theorem Represents.initialise (represents : Represents links lists) (node : Node) :
    Represents (initListHead links node) (lists.initialise node) ∧
      ∀ head members, lists head = some members → lists.initialise node head = some members →
        ∀ other, other ∈ head :: members → initListHead links node other = links other := by
  have wellFormed := represents.wellFormed
  have wasList : ∀ head members, lists.initialise node head = some members →
      (head = node ∧ members = []) ∨
        (lists head = some members ∧ node ∉ head :: members) := by
    intro head members isList
    rw [Lists.initialise] at isList
    by_cases same : head = node
    · rw [if_pos same, Option.some.injEq] at isList
      exact Or.inl ⟨same, isList.symm⟩
    · rw [if_neg same] at isList
      rcases Option.bind_eq_some_iff.mp isList with ⟨others, was, kept⟩
      by_cases member : node ∈ others
      · rw [if_pos member] at kept
        cases kept
      · rw [if_neg member, Option.some.injEq] at kept
        subst kept
        exact Or.inr ⟨was, List.not_mem_cons_of_ne_of_not_mem (Ne.symm same) member⟩
  have untouched : ∀ head members, node ∉ head :: members →
      ∀ other, other ∈ head :: members → initListHead links node other = links other := by
    intro head members outside other member
    exact initListHead_of_ne fun same => outside (same ▸ member)
  refine ⟨⟨⟨fun head members isList => ?_,
    fun one ones two twos isOne isTwo other inOne inTwo => ?_⟩, fun head members isList => ?_⟩,
    fun head members was isList => ?_⟩
  · rcases wasList head members isList with ⟨rfl, rfl⟩ | ⟨was, -⟩
    · exact List.nodup_singleton head
    · exact wellFormed.nodup head members was
  · rcases wasList one ones isOne with ⟨rfl, rfl⟩ | ⟨wasOne, apartOne⟩
    · rcases wasList two twos isTwo with ⟨rfl, -⟩ | ⟨-, apartTwo⟩
      · rfl
      · exact absurd (List.mem_singleton.mp inOne ▸ inTwo) apartTwo
    · rcases wasList two twos isTwo with ⟨rfl, rfl⟩ | ⟨wasTwo, -⟩
      · exact absurd (List.mem_singleton.mp inTwo ▸ inOne) apartOne
      · exact wellFormed.apart one ones two twos wasOne wasTwo other inOne inTwo
  · rcases wasList head members isList with ⟨rfl, rfl⟩ | ⟨was, outside⟩
    · exact ring_nil_iff.mpr (initListHead_head links head)
    · exact (represents.ring head members was).congr (untouched head members outside)
  · rcases wasList head members isList with ⟨rfl, rfl⟩ | ⟨-, outside⟩
    · intro other member
      rw [List.mem_singleton.mp member, initListHead_head]
      exact (ring_nil_iff.mp (represents.ring head [] was)).symm
    · exact untouched head members outside

end Steps

/-! ## Steps and runs -/

def ListOp.removed (lists : Lists Node) : ListOp Node → Option Node
  | .pop pos => some pos
  | .popEnd head => (lists head).bind List.getLast?
  | .init _ | .insert _ _ | .insertEnd _ _ => none

/-- What one operation does, apart from the lists that there are behind it. -/
structure StepHolds (links : Links Node) (lists next : Lists Node) (op : ListOp Node) : Prop where
  removed_alone : ∀ pos, op.removed lists = some pos →
    (op.run links).2 pos = { next := pos, prev := pos }
  returns_predecessor : ∀ pos, op.removed lists = some pos → ∀ head members,
    lists head = some members → ∀ front before back,
      head :: members = front ++ before :: pos :: back → (op.run links).1 = some before
  /-- A list that stays as it is keeps the pointers of its nodes. -/
  untouched : ∀ head members, lists head = some members → next head = some members →
    ∀ node, node ∈ head :: members → (op.run links).2 node = links node

theorem untouched_of_update {links changed : Links Node} {lists : Lists Node} {head : Node}
    {members changedMembers : List Node} (wellFormed : WellFormed lists)
    (isList : lists head = some members) (different : changedMembers ≠ members)
    (apart : ∀ other, other ∉ head :: members → InList lists other → changed other = links other) :
    ∀ one ones, lists one = some ones →
      Function.update lists head (some changedMembers) one = some ones →
      ∀ node, node ∈ one :: ones → changed node = links node := by
  intro one ones isOne stays node member
  have otherHead : one ≠ head := by
    rintro rfl
    rw [Function.update_self] at stays
    rw [isOne] at isList
    exact different (Option.some.inj (stays.trans isList))
  refine apart node (fun inside => otherHead ?_) ⟨one, ones, isOne, member⟩
  exact wellFormed.apart one ones head members isOne isList node member inside

section Step

variable {links : Links Node} {lists : Lists Node} {head pos node : Node} {members : List Node}

theorem insert_step (represents : Represents links lists) (isList : lists head = some members)
    (member : pos ∈ head :: members) (fresh : ¬InList lists node) :
    let next := Function.update lists head (some (insertAfter pos node (head :: members)).tail)
    Represents (listInsert links pos node) next ∧
      StepHolds links lists next (.insert pos node) := by
  rcases List.append_of_mem member with ⟨front, back, split⟩
  have first : pos ∉ front := by
    have once := represents.wellFormed.nodup head members isList
    rw [split] at once
    exact fun early => (List.nodup_append.mp once).2.2 pos early pos List.mem_cons_self rfl
  have result : head :: (insertAfter pos node (head :: members)).tail =
      front ++ pos :: node :: back := by
    have inserted := insertAfter_eq first back node
    rw [← split] at inserted
    rw [← inserted, insertAfter]
    split <;> rfl
  rcases represents.insert isList split fresh result with ⟨after, apart⟩
  refine ⟨after, fun _ none => (by cases none), fun _ none => (by cases none),
    untouched_of_update represents.wellFormed isList (fun same => ?_) apart⟩
  have longer := congrArg List.length result
  have length := congrArg List.length split
  simp only [same, List.length_cons, List.length_append] at longer length
  omega

theorem insertEnd_step (represents : Represents links lists) (isList : lists head = some members)
    (fresh : ¬InList lists node) :
    let next := Function.update lists head (some (members ++ [node]))
    Represents (listInsertEnd links head node) next ∧
      StepHolds links lists next (.insertEnd head node) := by
  rcases List.eq_nil_or_concat' (head :: members) with empty | ⟨front, pos, split⟩
  · cases empty
  have result : head :: (members ++ [node]) = front ++ [pos, node] := by
    rw [← List.cons_append, split, List.append_assoc]
    rfl
  have isPos : listInsertEnd links head node = listInsert links pos node := by
    rw [listInsertEnd, represents.last isList split]
  rcases represents.insert isList split fresh result with ⟨after, apart⟩
  rw [isPos]
  refine ⟨after, fun _ none => (by cases none), fun _ none => (by cases none),
    untouched_of_update represents.wellFormed isList (fun same => ?_)
      fun other outside inList => ?_⟩
  · simpa using congrArg List.length same
  · rw [ListOp.run, isPos]
    exact apart other outside inList

theorem popped_step (op : ListOp Node) (represents : Represents links lists)
    (isList : lists head = some members) {front back : List Node} {before : Node}
    (split : head :: members = front ++ before :: pos :: back) {changedMembers : List Node}
    (result : head :: changedMembers = front ++ before :: back)
    (isRun : op.run links = (some (listPop links pos).1, (listPop links pos).2))
    (isRemoved : op.removed lists = some pos) :
    let next := Function.update lists head (some changedMembers)
    Represents (op.run links).2 next ∧ StepHolds links lists next op := by
  rcases represents.pop isList split result with ⟨after, apart, returned, alone⟩
  rw [isRun]
  refine ⟨after, fun other isOther => ?_, fun other isOther one ones isOne early prior late
    splitOne => ?_, untouched_of_update represents.wellFormed isList (fun same => ?_)
      fun other outside _ => ?_⟩
  · rw [isRemoved, Option.some.injEq] at isOther
    subst isOther
    rw [isRun]
    exact alone
  · rw [isRemoved, Option.some.injEq] at isOther
    subst isOther
    have link := (represents.ring one ones isOne).link splitOne rfl
    rw [isRun, ← link.2]
    rfl
  · have shorter := congrArg List.length result
    have length := congrArg List.length split
    simp only [same, List.length_cons, List.length_append] at shorter length
    omega
  · rw [isRun]
    exact apart other outside

theorem pop_step (represents : Represents links lists) (isList : lists head = some members)
    (member : pos ∈ members) :
    let next := Function.update lists head (some (members.erase pos))
    Represents (listPop links pos).2 next ∧ StepHolds links lists next (.pop pos) := by
  rcases List.append_of_mem member with ⟨earlier, back, rfl⟩
  have first : pos ∉ earlier := by
    have once := (List.nodup_cons.mp (represents.wellFormed.nodup head _ isList)).2
    exact fun early => (List.nodup_append.mp once).2.2 pos early pos List.mem_cons_self rfl
  rw [List.erase_append_right _ first, List.erase_cons_head]
  rcases List.eq_nil_or_concat' (head :: earlier) with empty | ⟨front, before, split⟩
  · cases empty
  have splitPos : head :: (earlier ++ pos :: back) = front ++ before :: pos :: back := by
    rw [← List.cons_append, split, ← List.append_cons]
  have result : head :: (earlier ++ back) = front ++ before :: back := by
    rw [← List.cons_append, split, ← List.append_cons]
  exact popped_step (.pop pos) represents isList splitPos result rfl rfl

theorem popEnd_step (represents : Represents links lists) (isList : lists head = some members)
    (nonempty : members ≠ []) :
    let next := Function.update lists head (some members.dropLast)
    Represents (listPopEnd links head).2 next ∧ StepHolds links lists next (.popEnd head) := by
  rcases List.eq_nil_or_concat' members with empty | ⟨earlier, pos, rfl⟩
  · exact absurd empty nonempty
  rw [List.dropLast_concat]
  rcases List.eq_nil_or_concat' (head :: earlier) with empty | ⟨front, before, split⟩
  · cases empty
  have isPos : (links head).prev = pos := represents.last isList (List.cons_append.symm)
  have splitPos : head :: (earlier ++ [pos]) = front ++ before :: [pos] := by
    rw [← List.cons_append, split, ← List.append_cons]
  refine popped_step (.popEnd head) represents isList splitPos split ?_ ?_
  · rw [ListOp.run, listPopEnd, isPos]
  · simp [ListOp.removed, isList]

theorem Represents.step {op : ListOp Node} {next : Lists Node} (represents : Represents links lists)
    (acts : op.Acts lists next) :
    Represents (op.run links).2 next ∧ StepHolds links lists next op := by
  cases acts with
  | init head =>
      rcases represents.initialise head with ⟨after, untouched⟩
      exact ⟨after, fun _ none => (by cases none), fun _ none => (by cases none), untouched⟩
  | insert isList member fresh => exact insert_step represents isList member fresh
  | insertEnd isList fresh => exact insertEnd_step represents isList fresh
  | pop isList member => exact pop_step represents isList member
  | popEnd isList nonempty => exact popEnd_step represents isList nonempty

end Step

theorem ActsAll.represents {ops : List (ListOp Node)} {lists : Lists Node}
    (acts : ActsAll ops lists) (links : Links Node) : Represents (runOps ops links) lists := by
  induction acts with
  | nil => exact represents_none links
  | concat earlier acts induction =>
      rw [runOps, List.foldl_append]
      exact (induction.step acts).1

/-- What the loops over a list find. -/
structure RingsHold (links : Links Node) (lists : Lists Node) : Prop where
  neighbours : ∀ head members, lists head = some members → ∀ node, node ∈ head :: members →
    (links (links node).next).prev = node ∧ (links (links node).prev).next = node
  forward : ∀ head members, lists head = some members → ∀ nodes,
    Walk (fun node => (links node).next) head (links head).next nodes ↔ nodes = members
  backward : ∀ head members, lists head = some members → ∀ nodes,
    Walk (fun node => (links node).prev) head (links head).prev nodes ↔ nodes = members.reverse

omit [DecidableEq Node] in
theorem Represents.rings {links : Links Node} {lists : Lists Node}
    (represents : Represents links lists) : RingsHold links lists where
  neighbours := fun head members isList _ => (represents.ring head members isList).neighbours
  forward := by
    intro head members isList nodes
    have apart := (List.nodup_cons.mp (represents.wellFormed.nodup head members isList)).1
    have walk := (represents.ring head members isList).walk apart
    exact ⟨fun other => other.unique walk, fun same => same ▸ walk⟩
  backward := by
    intro head members isList nodes
    have apart := (List.nodup_cons.mp (represents.wellFormed.nodup head members isList)).1
    have walk := (represents.ring head members isList).walk_back apart
    exact ⟨fun other => other.unique walk, fun same => same ▸ walk⟩

/-- After any sequence of operations the rings are the lists, and so it is after one more. -/
theorem operations_keep_rings (links : Links Node) (ops : List (ListOp Node)) (lists : Lists Node)
    (acts : ActsAll ops lists) :
    RingsHold (runOps ops links) lists ∧
      ∀ op next, op.Acts lists next → StepHolds (runOps ops links) lists next op :=
  have represents := acts.represents links
  ⟨represents.rings, fun _ _ another => (represents.step another).2⟩

def insertTwoPopOne : List (ListOp Nat) := [.init 0, .insertEnd 0 1, .insert 0 2, .popEnd 0]

def onlyList (members : List Nat) : Lists Nat := Function.update (fun _ => none) 0 (some members)

theorem not_inList_onlyList (members : List Nat) (node : Nat) (outside : node ∉ 0 :: members) :
    ¬InList (onlyList members) node := by
  rintro ⟨head, others, isList, member⟩
  by_cases same : head = 0
  · subst same
    rw [onlyList, Function.update_self, Option.some.injEq] at isList
    exact outside (isList ▸ member)
  · rw [onlyList, Function.update_of_ne same] at isList
    cases isList

theorem onlyList_update (members changed : List Nat) :
    Function.update (onlyList members) 0 (some changed) = onlyList changed :=
  Function.update_idem _ _ _

theorem insertTwoPopOne_acts : ActsAll insertTwoPopOne (onlyList [2]) := by
  have isList : ∀ members, onlyList members 0 = some members := fun _ => Function.update_self ..
  have initial : ActsAll [.init 0] (onlyList []) := by
    have acts := ActsAll.nil.concat (ListOp.Acts.init 0)
    have isOnly : Lists.initialise (fun _ => none) 0 = onlyList [] := by
      funext head
      by_cases same : head = 0 <;> simp [Lists.initialise, onlyList, same]
    rwa [isOnly] at acts
  have first : (ListOp.insertEnd 0 1).Acts (onlyList []) (onlyList [1]) := by
    have acts := ListOp.Acts.insertEnd (isList []) (not_inList_onlyList [] 1 (by decide))
    rwa [onlyList_update] at acts
  have second : (ListOp.insert 0 2).Acts (onlyList [1]) (onlyList [2, 1]) := by
    have acts := ListOp.Acts.insert (isList [1]) List.mem_cons_self
      (not_inList_onlyList [1] 2 (by decide))
    rwa [onlyList_update] at acts
  have last : (ListOp.popEnd 0).Acts (onlyList [2, 1]) (onlyList [2]) := by
    have acts := ListOp.Acts.popEnd (isList [2, 1]) (by decide)
    rwa [onlyList_update] at acts
  exact ((initial.concat first).concat second).concat last

theorem insertTwoPopOne_keeps_rings :
    RingsHold (runOps insertTwoPopOne fun node => { next := node + 1, prev := 7 }) (onlyList [2]) ∧
      StepHolds (runOps insertTwoPopOne fun node => { next := node + 1, prev := 7 })
        (onlyList [2]) (onlyList []) (.pop 2) := by
  rcases operations_keep_rings (fun node => { next := node + 1, prev := 7 }) insertTwoPopOne
    (onlyList [2]) insertTwoPopOne_acts with ⟨rings, steps⟩
  have popped : (ListOp.pop 2).Acts (onlyList [2]) (onlyList []) := by
    have acts := ListOp.Acts.pop (show onlyList [2] 0 = some [2] from rfl) List.mem_cons_self
    rwa [onlyList_update] at acts
  exact ⟨rings, steps _ _ popped⟩

end SuBinary.Utils
