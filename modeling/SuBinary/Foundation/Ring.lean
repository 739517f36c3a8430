import Mathlib

/-! # Rings of nodes

Doubly linked rings in a heap of nodes, and the sequences that they stand for.
-/

namespace SuBinary

variable {Node : Type}

@[ext] structure ListHead (Node : Type) where
  next : Node
  prev : Node
deriving DecidableEq

abbrev Links (Node : Type) : Type := Node → ListHead Node

def Link (links : Links Node) (first second : Node) : Prop :=
  (links first).next = second ∧ (links second).prev = first

def circuit (head : Node) (members : List Node) : List Node := head :: (members ++ [head])

/-- The nodes are linked to a ring in this order. -/
def Ring (links : Links Node) (head : Node) (members : List Node) : Prop :=
  (circuit head members).IsChain (Link links)

/-! ## Paths -/

theorem isChain_congr {path : List Node} {first second : Node → Node → Prop}
    (chain : path.IsChain first)
    (same : ∀ left right, left ∈ path.dropLast → right ∈ path.tail → first left right →
      second left right) : path.IsChain second := by
  rw [List.isChain_iff_forall_rel_of_append_cons_cons] at chain ⊢
  rintro left right front back rfl
  refine same left right ?_ ?_ (chain rfl)
  · rw [List.dropLast_append_of_ne_nil (List.cons_ne_nil _ _)]
    exact List.mem_append_right _ (by simp)
  · cases front with
    | nil => exact List.mem_cons_self
    | cons node front => exact List.mem_append_right _ (by simp)

theorem tail_append_cons (front : List Node) (middle next : Node) (back : List Node) :
    (front ++ middle :: next :: back).tail = (front ++ [middle]).tail ++ next :: back := by
  cases front with
  | nil => rfl
  | cons node front => simp

theorem dropLast_append_cons (front : List Node) (middle next : Node) (back : List Node) :
    (front ++ middle :: next :: back).dropLast = front ++ middle :: (next :: back).dropLast := by
  rw [List.dropLast_append_of_ne_nil (List.cons_ne_nil _ _)]
  rfl

/-- A path that leaves and enters each node once. -/
structure Simple (path : List Node) : Prop where
  left : path.dropLast.Nodup
  entered : path.tail.Nodup

theorem simple_circuit {head : Node} {members : List Node} (nodup : (head :: members).Nodup) :
    Simple (circuit head members) where
  left := by
    rw [circuit, ← List.cons_append, List.dropLast_concat]
    exact nodup
  entered := (List.perm_append_singleton head members).nodup_iff.mpr nodup

section Surgery

variable [DecidableEq Node] {links changed : Links Node} {front back : List Node}

/-- What putting `node` between `pos` and `after` does to the pointers. -/
structure Inserted (links changed : Links Node) (pos node after : Node) : Prop where
  next : ∀ other, (changed other).next =
    if other = pos then node else if other = node then after else (links other).next
  prev : ∀ other, (changed other).prev =
    if other = after then node else if other = node then pos else (links other).prev

theorem Inserted.isChain {pos node after : Node} (inserted : Inserted links changed pos node after)
    (chain : (front ++ pos :: after :: back).IsChain (Link links))
    (simple : Simple (front ++ pos :: after :: back))
    (fresh : node ∉ front ++ pos :: after :: back) :
    (front ++ pos :: node :: after :: back).IsChain (Link changed) := by
  have leftOnce := simple.left
  have enteredOnce := simple.entered
  rw [dropLast_append_cons] at leftOnce
  rw [tail_append_cons] at enteredOnce
  rcases List.isChain_append_cons_cons.mp chain with ⟨before, -, behind⟩
  have kept : ∀ first second, first ≠ pos → first ≠ node → second ≠ after → second ≠ node →
      Link links first second → Link changed first second := by
    intro first second notPos notNode notAfter notNodeToo link
    constructor
    · rw [inserted.next, if_neg notPos, if_neg notNode]
      exact link.1
    · rw [inserted.prev, if_neg notAfter, if_neg notNodeToo]
      exact link.2
  have posNode : pos ≠ node := by
    rintro rfl
    exact fresh (by simp)
  have afterNode : after ≠ node := by
    rintro rfl
    exact fresh (by simp)
  refine List.isChain_append_cons_cons.mpr ⟨?_, ?_, List.isChain_cons_cons.mpr ⟨?_, ?_⟩⟩
  · apply isChain_congr before
    intro first second isFirst isSecond
    rw [List.dropLast_concat] at isFirst
    apply kept
    · rintro rfl
      exact (List.nodup_append.mp leftOnce).2.2 first isFirst first List.mem_cons_self rfl
    · rintro rfl
      exact fresh (List.mem_append_left _ isFirst)
    · rintro rfl
      exact (List.nodup_append.mp enteredOnce).2.2 second isSecond second List.mem_cons_self rfl
    · rintro rfl
      have := List.mem_of_mem_tail isSecond
      exact fresh (by simp at this ⊢; tauto)
  · exact ⟨by rw [inserted.next, if_pos rfl],
      by rw [inserted.prev, if_neg (Ne.symm afterNode), if_pos rfl]⟩
  · exact ⟨by rw [inserted.next, if_neg (Ne.symm posNode), if_pos rfl],
      by rw [inserted.prev, if_pos rfl]⟩
  · apply isChain_congr behind
    intro first second isFirst isSecond
    apply kept
    · rintro rfl
      exact (List.nodup_cons.mp (List.nodup_append.mp leftOnce).2.1).1 isFirst
    · rintro rfl
      have := List.mem_of_mem_dropLast isFirst
      exact fresh (by simp at this ⊢; tauto)
    · rintro rfl
      exact (List.nodup_cons.mp (List.nodup_append.mp enteredOnce).2.1).1 isSecond
    · rintro rfl
      have : second ∈ back := isSecond
      exact fresh (by simp [this])

theorem Inserted.apart {pos node after other : Node}
    (inserted : Inserted links changed pos node after) (notPos : other ≠ pos)
    (notNode : other ≠ node) (notAfter : other ≠ after) : changed other = links other := by
  apply ListHead.ext
  · rw [inserted.next, if_neg notPos, if_neg notNode]
  · rw [inserted.prev, if_neg notAfter, if_neg notNode]

/-- What taking `pos` out from between `before` and `after` does to the pointers. -/
structure Removed (links changed : Links Node) (before pos after : Node) : Prop where
  next : ∀ other, (changed other).next =
    if other = pos then pos else if other = before then after else (links other).next
  prev : ∀ other, (changed other).prev =
    if other = pos then pos else if other = after then before else (links other).prev

theorem Removed.isChain {before pos after : Node} (removed : Removed links changed before pos after)
    (chain : (front ++ before :: pos :: after :: back).IsChain (Link links))
    (simple : Simple (front ++ before :: pos :: after :: back)) (notBefore : before ≠ pos)
    (notAfter : after ≠ pos) :
    (front ++ before :: after :: back).IsChain (Link changed) := by
  have leftOnce := simple.left
  have enteredOnce := simple.entered
  rw [dropLast_append_cons] at leftOnce
  rw [tail_append_cons] at enteredOnce
  rcases List.isChain_append_cons_cons.mp chain with ⟨earlier, -, later⟩
  rcases List.isChain_cons_cons.mp later with ⟨-, behind⟩
  have kept : ∀ first second, first ≠ pos → first ≠ before → second ≠ pos → second ≠ after →
      Link links first second → Link changed first second := by
    intro first second firstPos firstBefore secondPos secondAfter link
    constructor
    · rw [removed.next, if_neg firstPos, if_neg firstBefore]
      exact link.1
    · rw [removed.prev, if_neg secondPos, if_neg secondAfter]
      exact link.2
  rcases List.nodup_append.mp leftOnce with ⟨-, leftBehind, leftApart⟩
  rcases List.nodup_append.mp enteredOnce with ⟨-, enteredBehind, enteredApart⟩
  refine List.isChain_append_cons_cons.mpr ⟨?_, ?_, ?_⟩
  · apply isChain_congr earlier
    intro first second isFirst isSecond
    rw [List.dropLast_concat] at isFirst
    apply kept
    · rintro rfl
      exact leftApart first isFirst first (by simp) rfl
    · rintro rfl
      exact leftApart first isFirst first List.mem_cons_self rfl
    · rintro rfl
      exact enteredApart second isSecond second List.mem_cons_self rfl
    · rintro rfl
      exact enteredApart second isSecond second (by simp) rfl
  · exact ⟨by rw [removed.next, if_neg notBefore, if_pos rfl],
      by rw [removed.prev, if_neg notAfter, if_pos rfl]⟩
  · apply isChain_congr behind
    intro first second isFirst isSecond
    apply kept
    · rintro rfl
      have := (List.nodup_cons.mp (List.nodup_cons.mp leftBehind).2).1
      exact this isFirst
    · rintro rfl
      exact (List.nodup_cons.mp leftBehind).1 (List.mem_cons_of_mem _ isFirst)
    · rintro rfl
      exact (List.nodup_cons.mp enteredBehind).1 (List.mem_cons_of_mem _ isSecond)
    · rintro rfl
      exact (List.nodup_cons.mp (List.nodup_cons.mp enteredBehind).2).1 isSecond

theorem Removed.apart {before pos after other : Node}
    (removed : Removed links changed before pos after) (notPos : other ≠ pos)
    (notBefore : other ≠ before) (notAfter : other ≠ after) : changed other = links other := by
  apply ListHead.ext
  · rw [removed.next, if_neg notPos, if_neg notBefore]
  · rw [removed.prev, if_neg notPos, if_neg notAfter]

theorem Removed.singleton {before pos after : Node}
    (removed : Removed links changed before pos after) :
    changed pos = { next := pos, prev := pos } := by
  apply ListHead.ext
  · rw [removed.next, if_pos rfl]
  · rw [removed.prev, if_pos rfl]

end Surgery

/-! ## Rings -/

section Rings

variable {links changed : Links Node} {head pos : Node} {members front back : List Node}

theorem circuit_eq (split : head :: members = front ++ pos :: back) :
    circuit head members = front ++ pos :: (back ++ [head]) := by
  rw [circuit, ← List.cons_append, split, List.append_assoc, List.cons_append]

theorem exists_after (back : List Node) (head : Node) :
    ∃ after rest, back ++ [head] = after :: rest := by
  cases back with
  | nil => exact ⟨head, [], rfl⟩
  | cons after back => exact ⟨after, back ++ [head], rfl⟩

theorem Ring.link (ring : Ring links head members) {after : Node} {rest : List Node}
    (split : head :: members = front ++ pos :: back) (isAfter : back ++ [head] = after :: rest) :
    Link links pos after := by
  rw [Ring, circuit_eq split, isAfter] at ring
  exact (List.isChain_append_cons_cons.mp ring).2.1

theorem Ring.exists_next (ring : Ring links head members) {node : Node}
    (member : node ∈ head :: members) : ∃ after, Link links node after := by
  rcases List.append_of_mem member with ⟨front, back, split⟩
  rcases exists_after back head with ⟨after, rest, isAfter⟩
  exact ⟨after, ring.link split isAfter⟩

theorem Ring.congr (ring : Ring links head members)
    (same : ∀ node, node ∈ head :: members → changed node = links node) :
    Ring changed head members := by
  rw [Ring] at ring ⊢
  apply List.IsChain.imp_of_mem_imp _ ring
  intro first second isFirst isSecond link
  have inRing : ∀ node, node ∈ circuit head members → node ∈ head :: members := by
    intro node member
    simp only [circuit, List.mem_cons, List.mem_append, List.not_mem_nil, or_false] at member ⊢
    tauto
  exact ⟨by rw [same first (inRing first isFirst)]; exact link.1,
    by rw [same second (inRing second isSecond)]; exact link.2⟩

theorem ring_nil_iff : Ring links head [] ↔ links head = { next := head, prev := head } := by
  rw [Ring, circuit, List.nil_append, List.isChain_pair, Link]
  constructor
  · exact fun link => ListHead.ext link.1 link.2
  · intro isLinks
    rw [isLinks]
    exact ⟨rfl, rfl⟩

def reversed (links : Links Node) : Links Node :=
  fun node => { next := (links node).prev, prev := (links node).next }

theorem Ring.reverse (ring : Ring links head members) :
    Ring (reversed links) head members.reverse := by
  have isReverse : circuit head members.reverse = (circuit head members).reverse := by
    simp [circuit]
  rw [Ring, isReverse, List.isChain_reverse]
  exact List.IsChain.imp (fun first second link => ⟨link.2, link.1⟩) ring

theorem Ring.neighbours (ring : Ring links head members) {node : Node}
    (member : node ∈ head :: members) :
    (links (links node).next).prev = node ∧ (links (links node).prev).next = node := by
  rcases ring.exists_next member with ⟨after, link⟩
  have memberToo : node ∈ head :: members.reverse := by simpa using member
  rcases ring.reverse.exists_next memberToo with ⟨before, linkBack⟩
  constructor
  · rw [link.1]
    exact link.2
  · have isBefore : (links node).prev = before := linkBack.1
    rw [isBefore]
    exact linkBack.2

/-- The nodes that a loop meets that follows `next` from `node` on until it is back at
`head`. -/
inductive Walk (next : Node → Node) (head : Node) : Node → List Node → Prop
  | stop : Walk next head head []
  | step {node : Node} {rest : List Node} (inside : node ≠ head)
      (later : Walk next head (next node) rest) : Walk next head node (node :: rest)

theorem Walk.unique {next : Node → Node} {node : Node} {one two : List Node}
    (first : Walk next head node one) (second : Walk next head node two) : one = two := by
  induction first generalizing two with
  | stop =>
      cases second with
      | stop => rfl
      | step inside later => exact absurd rfl inside
  | step inside later induction =>
      cases second with
      | stop => exact absurd rfl inside
      | step _ laterToo => rw [induction laterToo]

theorem walk_of_isChain {next : Node → Node} {start : Node}
    (chain : (start :: (members ++ [head])).IsChain fun first second => next first = second)
    (apart : head ∉ members) : Walk next head (next start) members := by
  induction members generalizing start with
  | nil =>
      have isHead : next start = head := (List.isChain_cons_cons.mp chain).1
      rw [isHead]
      exact Walk.stop
  | cons node members induction =>
      rcases List.isChain_cons_cons.mp chain with ⟨isNode, later⟩
      rw [isNode]
      refine Walk.step ?_ (induction later fun member => apart (List.mem_cons_of_mem _ member))
      rintro rfl
      exact apart List.mem_cons_self

theorem Ring.walk (ring : Ring links head members) (apart : head ∉ members) :
    Walk (fun node => (links node).next) head (links head).next members :=
  walk_of_isChain (List.IsChain.imp (fun _ _ link => link.1) ring) apart

theorem Ring.walk_back (ring : Ring links head members) (apart : head ∉ members) :
    Walk (fun node => (links node).prev) head (links head).prev members.reverse :=
  ring.reverse.walk fun member => apart (List.mem_reverse.mp member)

end Rings

end SuBinary
