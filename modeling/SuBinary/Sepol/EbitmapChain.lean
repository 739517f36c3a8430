import SuBinary.Foundation.BlockSet
import SuBinary.Foundation.Loop
import SuBinary.Sepol.Ebitmap

/-! # Bitmaps as chains of nodes

`ebitmap.c` of libsepol, with the nodes of a chain as a list. Allocation succeeds. The sum
of a start bit and `MAPSIZE` has the width of a `size_t`; in the bitmaps that there are it
also fits into 32 bits.
-/

namespace SuBinary.Sepol

open SuBinary BlockSet

/-- `MAPSIZE` -/
abbrev mapSize : Nat := 64

abbrev EbitmapNode : Type := BitBlock mapSize

structure EbitmapChain where
  node : List EbitmapNode
  highbit : Nat
deriving DecidableEq

def einval : Int := 22

namespace EbitmapChain

def ebitmapInit : EbitmapChain where
  node := []
  highbit := 0

/-! ## Single bits -/

def getBitLoop (bit : Nat) : List EbitmapNode → Bool
  | [] => false
  | n :: next =>
      if n.startbit ≤ bit then
        if bit < n.startbit + mapSize then
          decide (n.map &&& BitVec.twoPow mapSize (bit - n.startbit) ≠ 0)
        else getBitLoop bit next
      else false

def ebitmapGetBit (e : EbitmapChain) (bit : Nat) : Bool :=
  if e.highbit < bit then false else getBitLoop bit e.node

/-- Where a bitmap ends in which `prev` is the last node. -/
def endOf : Option EbitmapNode → Nat
  | none => 0
  | some prev => prev.startbit + mapSize

def newNode (bit : Nat) : EbitmapNode where
  startbit := bit / mapSize * mapSize
  map := BitVec.twoPow mapSize (bit - bit / mapSize * mapSize)

/-- The results are what is behind `prev` and `highbit`. -/
def setBitLoop (bit : Nat) (value : Bool) (highbit : Nat) (prev : Option EbitmapNode) :
    List EbitmapNode → List EbitmapNode × Nat
  | [] =>
      if value then ([newNode bit], bit / mapSize * mapSize + mapSize) else ([], highbit)
  | n :: next =>
      if n.startbit ≤ bit then
        if bit < n.startbit + mapSize then
          if value then
            ({ n with map := n.map ||| BitVec.twoPow mapSize (bit - n.startbit) } :: next, highbit)
          else
            let map := n.map &&& ~~~BitVec.twoPow mapSize (bit - n.startbit)
            if map = 0 then
              -- the highest node of the bitmap is dropped
              (next, if next = [] then endOf prev else highbit)
            else ({ n with map } :: next, highbit)
        else
          let result := setBitLoop bit value highbit (some n) next
          (n :: result.1, result.2)
      else if value then (newNode bit :: n :: next, highbit) else (n :: next, highbit)

def ebitmapSetBit (e : EbitmapChain) (bit : Nat) (value : Bool) : Except Int EbitmapChain :=
  let startbit := bit / mapSize * mapSize
  let highbit := (startbit + mapSize) % 2 ^ 32
  if highbit = 0 then .error (-einval)
  else
    let result := setBitLoop bit value e.highbit none e.node
    .ok { node := result.1, highbit := result.2 }

/-! ## Iteration -/

/-- The loop of `ebitmap_for_each_bit`: the node with those behind it, the bit, and the
bits of which `ebitmap_node_get_bit` has been true. -/
structure ForEach where
  n : List EbitmapNode
  bit : Nat
  bits : List Nat

def ebitmapNext (n : EbitmapNode) (next : List EbitmapNode) (bit : Nat) :
    List EbitmapNode × Nat :=
  match next with
  | [] => (n :: next, bit + 1)
  | first :: _ =>
      if bit = n.startbit + mapSize - 1 then (next, first.startbit) else (n :: next, bit + 1)

def ebitmapNodeGetBit (n : EbitmapNode) (bit : Nat) : Bool :=
  decide (n.map &&& BitVec.twoPow mapSize (bit - n.startbit) ≠ 0)

theorem ebitmapNext_decreases (n : EbitmapNode) (next : List EbitmapNode) {bit highbit : Nat}
    (inside : bit < highbit) :
    (ebitmapNext n next bit).1.length * (highbit + 1) + (highbit - (ebitmapNext n next bit).2) <
      (n :: next).length * (highbit + 1) + (highbit - bit) := by
  rw [ebitmapNext.eq_def]
  split
  · simp only [List.length_cons]
    omega
  · split
    · rename_i first rest _
      simp only [List.length_cons, Nat.add_mul]
      omega
    · simp only [List.length_cons]
      omega

/-- `none` is an access to a node that there is not, or to a bit that is not in the node. -/
def forEachLoop (highbit : Nat) : Loop ForEach (Option (List Nat)) where
  body state :=
    if state.bit < highbit then
      match state.n with
      | [] => .finish none
      | n :: next =>
          if n.startbit ≤ state.bit ∧ state.bit < n.startbit + mapSize then
            .again
              { n := (ebitmapNext n next state.bit).1
                bit := (ebitmapNext n next state.bit).2
                bits :=
                  if ebitmapNodeGetBit n state.bit then state.bits ++ [state.bit]
                  else state.bits }
          else .finish none
    else .finish (some state.bits)
  rank state := state.n.length * (highbit + 1) + (highbit - state.bit)
  decreases := by
    intro state next turn
    split at turn
    · rename_i inside
      split at turn
      · cases turn
      · rename_i n rest isNode
        split at turn
        · cases turn
          rw [isNode]
          exact ebitmapNext_decreases n rest inside
        · cases turn
    · cases turn

def startbit (e : EbitmapChain) : Nat :=
  match e.node with
  | [] => 0
  | n :: _ => n.startbit

/-- The bits that `ebitmap_for_each_bit` meets, in its order. -/
def ebitmapForEachBit (e : EbitmapChain) : Option (List Nat) :=
  (forEachLoop e.highbit).run { n := e.node, bit := e.startbit, bits := [] }

/-! ## Well-formed bitmaps -/

structure WellFormed (e : EbitmapChain) : Prop where
  canonical : Canonical e.node
  fits : ∀ n, n ∈ e.node → n.startbit + mapSize < 2 ^ 32
  isHighbit : e.highbit = endOf e.node.getLast?

def ebitmap (e : EbitmapChain) (wellFormed : e.WellFormed) : Ebitmap where
  bits := positions e.node
  ascending := wellFormed.canonical.positions_ascending

/-! ## The node of a bit -/

section Places

variable {start bit : Nat}

theorem place_eq (aligned : mapSize ∣ start) (notBefore : start ≤ bit)
    (inside : bit < start + mapSize) : bit / mapSize * mapSize = start := by
  rcases aligned with ⟨place, rfl⟩
  simp only [mapSize] at *
  omega

theorem place_lt (aligned : mapSize ∣ start) (before : bit < start) :
    bit / mapSize * mapSize < start := by
  rcases aligned with ⟨place, rfl⟩
  simp only [mapSize] at *
  omega

theorem lt_place (aligned : mapSize ∣ start) (behind : start + mapSize ≤ bit) :
    start < bit / mapSize * mapSize := by
  rcases aligned with ⟨place, rfl⟩
  simp only [mapSize] at *
  omega

theorem offset_eq (bit : Nat) : bit - bit / mapSize * mapSize = bit % mapSize := by
  simp only [mapSize]
  omega

theorem and_twoPow_ne_zero {map : BitVec mapSize} {offset : Nat} (inside : offset < mapSize) :
    map &&& BitVec.twoPow mapSize offset ≠ 0 ↔ map.getLsbD offset = true := by
  rw [BitVec.and_twoPow]
  constructor
  · intro some
    by_contra notSet
    rw [if_neg notSet] at some
    exact some rfl
  · intro isSet empty
    rw [if_pos isSet] at empty
    have noBit := congrArg (BitVec.getLsbD · offset) empty
    simp [inside] at noBit

end Places

theorem getBitLoop_iff {nodes : List EbitmapNode} (canonical : Canonical nodes) (bit : Nat) :
    getBitLoop bit nodes = true ↔ Has nodes bit := by
  induction nodes with
  | nil => simp [getBitLoop, Has]
  | cons n next induction =>
      rw [getBitLoop, has_cons]
      split
      · rename_i notBefore
        split
        · rename_i inside
          rw [decide_eq_true_iff, and_twoPow_ne_zero (by omega)]
          constructor
          · exact fun isSet => Or.inl ⟨notBefore, isSet⟩
          · rintro (has | ⟨later, member, has⟩)
            · exact has.2
            · have apart := canonical.apart member
              have laterBefore := has.1
              omega
        · rename_i behind
          rw [induction canonical.tail]
          constructor
          · exact Or.inr
          · exact fun has => has.resolve_left fun has => behind has.lt
      · rename_i before
        refine iff_of_false Bool.false_ne_true ?_
        rintro (has | ⟨later, member, has⟩)
        · exact before has.1
        · have apart := canonical.apart member
          have laterBefore := has.1
          omega

theorem le_endOf {nodes : List EbitmapNode} (canonical : Canonical nodes) :
    ∀ n, n ∈ nodes → n.startbit + mapSize ≤ endOf nodes.getLast? := by
  induction nodes with
  | nil => exact fun n member => absurd member List.not_mem_nil
  | cons first rest induction =>
      intro n member
      cases rest with
      | nil =>
          rw [List.mem_singleton.mp member]
          exact Nat.le_refl _
      | cons second rest =>
          have later := induction canonical.tail
          rw [List.getLast?_cons_cons]
          rcases List.mem_cons.mp member with rfl | member
          · have apart := canonical.apart (@List.mem_cons_self _ second rest)
            have secondLater := later second List.mem_cons_self
            omega
          · exact later n member

theorem has_lt_endOf {nodes : List EbitmapNode} (canonical : Canonical nodes) {bit : Nat}
    (has : Has nodes bit) : bit < endOf nodes.getLast? := by
  rcases has with ⟨n, member, has⟩
  exact Nat.lt_of_lt_of_le has.lt (le_endOf canonical n member)

theorem endOf_le_iff {nodes : List EbitmapNode} (canonical : Canonical nodes) (bound : Nat) :
    endOf nodes.getLast? ≤ bound ↔ ∀ n, n ∈ nodes → n.startbit + mapSize ≤ bound := by
  constructor
  · exact fun ends n member => (le_endOf canonical n member).trans ends
  · intro before
    cases last : nodes.getLast? with
    | none => exact Nat.zero_le _
    | some n => exact before n (List.mem_of_getLast? last)

theorem WellFormed.lt_highbit {e : EbitmapChain} (wellFormed : e.WellFormed) {bit : Nat}
    (has : Has e.node bit) : bit < e.highbit :=
  wellFormed.isHighbit ▸ has_lt_endOf wellFormed.canonical has

theorem WellFormed.getBit_iff {e : EbitmapChain} (wellFormed : e.WellFormed) (bit : Nat) :
    ebitmapGetBit e bit = true ↔ Has e.node bit := by
  rw [ebitmapGetBit]
  split
  · rename_i behind
    refine iff_of_false Bool.false_ne_true fun has => ?_
    have inside := has_lt_endOf wellFormed.canonical has
    rw [← wellFormed.isHighbit] at inside
    omega
  · exact getBitLoop_iff wellFormed.canonical bit

/-! ## Setting a bit -/

theorem wellFormed_init : ebitmapInit.WellFormed where
  canonical := canonical_nil
  fits _ member := absurd member List.not_mem_nil
  isHighbit := rfl

theorem newNode_eq (bit : Nat) :
    newNode bit =
      { startbit := bit / mapSize * mapSize, map := editBit (bit % mapSize) true 0 } := by
  rw [newNode, offset_eq, editBit, if_pos rfl]
  congr 1
  exact (BitVec.zero_or).symm

theorem editBit_true_ne_zero (bit : Nat) (map : BitVec mapSize) :
    editBit (bit % mapSize) true map ≠ 0 := by
  intro empty
  have inside : bit % mapSize < mapSize := Nat.mod_lt _ (by decide)
  have isSet := @getLsbD_editBit mapSize (bit % mapSize) (bit % mapSize) inside true map
  rw [empty, if_pos rfl] at isSet
  simp at isSet

theorem editBit_false_zero (bit : Nat) : editBit bit false (0 : BitVec mapSize) = 0 := by
  rw [editBit, if_neg Bool.false_ne_true]
  exact BitVec.zero_and

theorem keep_set (bit start : Nat) (map : BitVec mapSize) (rest : List EbitmapNode) :
    keep { startbit := start, map := editBit (bit % mapSize) true map } rest =
      { startbit := start, map := map ||| BitVec.twoPow mapSize (bit % mapSize) } :: rest := by
  rw [keep, if_neg (editBit_true_ne_zero bit map)]
  rfl

theorem keep_cleared (bit start : Nat) (map : BitVec mapSize) (rest : List EbitmapNode) :
    keep { startbit := start, map := editBit (bit % mapSize) false map } rest =
      if map &&& ~~~BitVec.twoPow mapSize (bit % mapSize) = 0 then rest
      else
        { startbit := start, map := map &&& ~~~BitVec.twoPow mapSize (bit % mapSize) } :: rest :=
  rfl

theorem keep_newNode (bit : Nat) (rest : List EbitmapNode) :
    keep { startbit := bit / mapSize * mapSize, map := editBit (bit % mapSize) true 0 } rest =
      newNode bit :: rest := by
  rw [keep, if_neg (editBit_true_ne_zero bit 0), newNode_eq]

theorem keep_none (bit : Nat) (rest : List EbitmapNode) :
    keep { startbit := bit / mapSize * mapSize, map := editBit (bit % mapSize) false 0 } rest =
      rest := by
  rw [keep, if_pos (editBit_false_zero _)]

def lastOf (prev : Option EbitmapNode) (nodes : List EbitmapNode) : Option EbitmapNode :=
  nodes.getLast?.or prev

theorem lastOf_cons (prev : Option EbitmapNode) (n : EbitmapNode) (next : List EbitmapNode) :
    lastOf prev (n :: next) = lastOf (some n) next := by
  rw [lastOf, lastOf, List.getLast?_cons]
  cases next.getLast? with
  | none => rfl
  | some last => rfl

theorem lastOf_of_ne_nil {next : List EbitmapNode} (someNode : next ≠ [])
    (prev other : Option EbitmapNode) : lastOf prev next = lastOf other next := by
  rcases List.exists_cons_of_ne_nil someNode with ⟨n, rest, rfl⟩
  rw [lastOf_cons, lastOf_cons]

theorem endOf_lastOf_map (prev : Option EbitmapNode) (n : EbitmapNode) (map : BitVec mapSize)
    (next : List EbitmapNode) :
    endOf (lastOf prev (n :: next)) = endOf (lastOf prev ({ n with map } :: next)) := by
  rw [lastOf_cons, lastOf_cons]
  cases next with
  | nil => rfl
  | cons second rest => rw [lastOf_cons, lastOf_cons]

/-- The loop changes one word and keeps `highbit` at the end of the chain. -/
theorem setBitLoop_eq (bit : Nat) (value : Bool) {nodes : List EbitmapNode}
    (canonical : Canonical nodes) (prev : Option EbitmapNode) :
    setBitLoop bit value (endOf (lastOf prev nodes)) prev nodes =
      (edit (bit / mapSize * mapSize) (editBit (bit % mapSize) value) nodes,
        endOf (lastOf prev
          (edit (bit / mapSize * mapSize) (editBit (bit % mapSize) value) nodes))) := by
  induction nodes generalizing prev with
  | nil =>
      cases value with
      | true =>
          rw [edit, keep_newNode]
          rfl
      | false =>
          rw [edit, keep_none]
          rfl
  | cons n next induction =>
      have aligned := canonical.aligned n List.mem_cons_self
      rw [setBitLoop, edit]
      split
      · rename_i notBefore
        split
        · rename_i inside
          have isPlace := place_eq aligned notBefore inside
          have isOffset : bit - n.startbit = bit % mapSize := by rw [← isPlace, offset_eq]
          rw [isPlace, if_neg (Nat.lt_irrefl _), if_pos rfl, isOffset]
          cases value with
          | true =>
              rw [if_pos rfl, keep_set]
              exact congrArg _ (endOf_lastOf_map prev n _ next)
          | false =>
              rw [if_neg Bool.false_ne_true, keep_cleared]
              dsimp only
              split
              · split
                · rename_i none
                  rw [none]
                  rfl
                · rename_i someNode
                  rw [lastOf_cons, lastOf_of_ne_nil someNode _ prev]
              · exact congrArg _ (endOf_lastOf_map prev n _ next)
        · rename_i behind
          have later := lt_place aligned (Nat.le_of_not_lt behind)
          rw [if_neg (Nat.lt_asymm later), if_neg (Nat.ne_of_gt later), lastOf_cons, lastOf_cons,
            induction canonical.tail]
      · rename_i before
        rw [if_pos (place_lt aligned (Nat.lt_of_not_le before))]
        cases value with
        | true =>
            rw [if_pos rfl, keep_newNode, lastOf_cons prev (newNode bit),
              lastOf_of_ne_nil (List.cons_ne_nil n next)]
        | false => rw [if_neg Bool.false_ne_true, keep_none]

/-- The bits that no bitmap can have. -/
def overflows (bit : Nat) : Prop := 2 ^ 32 - mapSize ≤ bit

instance (bit : Nat) : Decidable (overflows bit) := inferInstanceAs (Decidable (_ ≤ _))

theorem ebitmapSetBit_refused {e : EbitmapChain} {bit : Nat} (isUnsigned : bit < 2 ^ 32)
    (value : Bool) (overflow : overflows bit) : e.ebitmapSetBit bit value = .error (-einval) := by
  have wraps : (bit / mapSize * mapSize + mapSize) % 2 ^ 32 = 0 := by
    simp only [overflows, mapSize] at *
    omega
  rw [ebitmapSetBit]
  exact if_pos wraps

section SetBit

variable {e : EbitmapChain} {bit : Nat} (wellFormed : e.WellFormed)
  (inside : ¬overflows bit) (value : Bool)

include wellFormed inside

theorem WellFormed.setBit :
    ∃ next, e.ebitmapSetBit bit value = .ok next ∧ next.WellFormed ∧
      ∀ other, Has next.node other ↔ if other = bit then value = true else Has e.node other := by
  have notZero : (bit / mapSize * mapSize + mapSize) % 2 ^ 32 ≠ 0 := by
    simp only [overflows, mapSize] at *
    omega
  have aligned : mapSize ∣ bit / mapSize * mapSize := Nat.dvd_mul_left _ _
  have canonical := canonical_edit wellFormed.canonical aligned (editBit (bit % mapSize) value)
  have ran := setBitLoop_eq bit value wellFormed.canonical none
  rw [lastOf, Option.or_none, ← wellFormed.isHighbit] at ran
  refine ⟨_, if_neg notZero, ⟨?_, ?_, ?_⟩, ?_⟩
  · rw [ran]
    exact canonical
  · rw [ran]
    intro n member
    rcases mem_edit member with isPlace | member
    · rw [isPlace]
      simp only [overflows, mapSize] at *
      omega
    · exact wellFormed.fits n member
  · rw [ran, lastOf, Option.or_none]
  · rw [ran]
    exact has_edit_editBit wellFormed.canonical (by decide) bit value

end SetBit

/-! ## Refinement of sets -/

theorem WellFormed.highbit_fits {e : EbitmapChain} (wellFormed : e.WellFormed) {bit : Nat}
    (inside : bit < e.highbit) : ¬overflows bit := by
  have ends : e.highbit ≤ 2 ^ 32 - mapSize := by
    rw [wellFormed.isHighbit, endOf_le_iff wellFormed.canonical]
    intro n member
    have fits := wellFormed.fits n member
    rcases wellFormed.canonical.aligned n member with ⟨place, isPlace⟩
    simp only [mapSize] at *
    omega
  exact Nat.not_le_of_lt (Nat.lt_of_lt_of_le inside ends)

theorem mem_ebitmap {e : EbitmapChain} (wellFormed : e.WellFormed) (bit : Nat) :
    bit ∈ (e.ebitmap wellFormed).bits ↔ Has e.node bit :=
  mem_positions e.node bit

theorem WellFormed.eq_of_has {e other : EbitmapChain} (wellFormed : e.WellFormed)
    (wellFormedOther : other.WellFormed) (same : ∀ bit, Has e.node bit ↔ Has other.node bit) :
    e = other := by
  have sameNodes := wellFormed.canonical.eq_of_has wellFormedOther.canonical same
  have sameHighbit : e.highbit = other.highbit := by
    rw [wellFormed.isHighbit, wellFormedOther.isHighbit, sameNodes]
  cases e
  cases other
  simp only at sameNodes sameHighbit
  rw [sameNodes, sameHighbit]

theorem WellFormed.not_overflows {e : EbitmapChain} (wellFormed : e.WellFormed) {bit : Nat}
    (has : Has e.node bit) : ¬overflows bit := by
  rcases has with ⟨n, member, has⟩
  have fits := wellFormed.fits n member
  rcases wellFormed.canonical.aligned n member with ⟨place, isPlace⟩
  have before := has.lt
  simp only [overflows, mapSize] at *
  omega

def runSetBits (calls : List (Nat × Bool)) (e : EbitmapChain) : Except Int EbitmapChain :=
  calls.foldlM (fun e call => e.ebitmapSetBit call.1 call.2) e

def setBits (calls : List (Nat × Bool)) (e : Ebitmap) : Ebitmap :=
  calls.foldl (fun e call => Sepol.ebitmapSetBit e call.1 call.2) e

theorem runSetBits_cons (call : Nat × Bool) (rest : List (Nat × Bool)) (e : EbitmapChain) :
    runSetBits (call :: rest) e = (e.ebitmapSetBit call.1 call.2).bind (runSetBits rest) :=
  rfl

theorem WellFormed.runSetBits {e : EbitmapChain} (wellFormed : e.WellFormed)
    {calls : List (Nat × Bool)} (inside : ∀ call, call ∈ calls → ¬overflows call.1) :
    ∃ last, EbitmapChain.runSetBits calls e = .ok last ∧ last.WellFormed ∧
      ∀ bit, Has last.node bit ↔ bit ∈ (setBits calls (e.ebitmap wellFormed)).bits := by
  suffices holds : ∀ abstract : Ebitmap, (∀ bit, bit ∈ abstract.bits ↔ Has e.node bit) →
      ∃ last, EbitmapChain.runSetBits calls e = .ok last ∧ last.WellFormed ∧
        ∀ bit, Has last.node bit ↔ bit ∈ (setBits calls abstract).bits from
    holds _ (mem_ebitmap wellFormed)
  induction calls generalizing e with
  | nil => exact fun abstract same => ⟨e, rfl, wellFormed, fun bit => (same bit).symm⟩
  | cons call rest induction =>
      intro abstract same
      rcases wellFormed.setBit (inside call List.mem_cons_self) call.2 with
        ⟨next, ran, wellFormedNext, has⟩
      rw [runSetBits_cons, ran]
      refine induction wellFormedNext
        (fun later member => inside later (List.mem_cons_of_mem _ member)) _ fun bit => ?_
      rw [mem_ebitmapSetBit, has]
      simp only [same]

theorem runSetBits_refused {calls : List (Nat × Bool)} {e : EbitmapChain}
    (wellFormed : e.WellFormed) (areUnsigned : ∀ call, call ∈ calls → call.1 < 2 ^ 32)
    {call : Nat × Bool} (member : call ∈ calls) (overflow : overflows call.1) :
    runSetBits calls e = .error (-einval) := by
  induction calls generalizing e with
  | nil => cases member
  | cons first rest induction =>
      rw [runSetBits_cons]
      by_cases overflowFirst : overflows first.1
      · rw [ebitmapSetBit_refused (areUnsigned first List.mem_cons_self) _ overflowFirst]
        rfl
      · rcases wellFormed.setBit overflowFirst first.2 with ⟨next, ran, wellFormedNext, -⟩
        rw [ran]
        rcases List.mem_cons.mp member with rfl | member
        · exact absurd overflow overflowFirst
        · exact induction wellFormedNext
            (fun later isLater => areUnsigned later (List.mem_cons_of_mem _ isLater)) member

/-! ## What the iteration meets -/

section ForEach

variable {n : EbitmapNode} {next : List EbitmapNode} {highbit : Nat}

def bitsFrom (n : EbitmapNode) (offset left : Nat) : List Nat :=
  ((List.range' offset left).filter fun offset => n.map.getLsbD offset).map (n.startbit + ·)

theorem bitsFrom_zero (n : EbitmapNode) : bitsFrom n 0 mapSize = n.positions := by
  rw [bitsFrom, BitBlock.positions, List.range_eq_range']

theorem bitsFrom_succ (n : EbitmapNode) (offset left : Nat) :
    bitsFrom n offset (left + 1) =
      (if n.map.getLsbD offset then [n.startbit + offset] else []) ++
        bitsFrom n (offset + 1) left := by
  rw [bitsFrom, List.range'_succ, List.filter_cons]
  split
  · rfl
  · rfl

def behindNode (n : EbitmapNode) (next : List EbitmapNode) (bits : List Nat) : ForEach :=
  match next with
  | [] => { n := [n], bit := n.startbit + mapSize, bits }
  | first :: _ => { n := next, bit := first.startbit, bits }

theorem forEachLoop_again {offset : Nat} (inside : offset < mapSize)
    (ends : n.startbit + mapSize ≤ highbit) (bits : List Nat) :
    (forEachLoop highbit).run { n := n :: next, bit := n.startbit + offset, bits } =
      (forEachLoop highbit).run
        { n := (ebitmapNext n next (n.startbit + offset)).1
          bit := (ebitmapNext n next (n.startbit + offset)).2
          bits := bits ++ if n.map.getLsbD offset then [n.startbit + offset] else [] } := by
  apply Loop.run_of_again
  have isHere : n.startbit ≤ n.startbit + offset ∧ n.startbit + offset < n.startbit + mapSize :=
    ⟨Nat.le_add_right _ _, Nat.add_lt_add_left inside _⟩
  simp only [forEachLoop]
  rw [if_pos (Nat.lt_of_lt_of_le isHere.2 ends), if_pos isHere]
  congr 2
  rw [ebitmapNodeGetBit, Nat.add_sub_cancel_left]
  simp only [decide_eq_true_eq, and_twoPow_ne_zero inside]
  split
  · rfl
  · rw [List.append_nil]

theorem forEachLoop_node {left offset : Nat} (isLeft : offset + (left + 1) = mapSize)
    (ends : n.startbit + mapSize ≤ highbit) (bits : List Nat) :
    (forEachLoop highbit).run { n := n :: next, bit := n.startbit + offset, bits } =
      (forEachLoop highbit).run (behindNode n next (bits ++ bitsFrom n offset (left + 1))) := by
  induction left generalizing offset bits with
  | zero =>
      have inside : offset < mapSize := by omega
      have isLast : n.startbit + offset = n.startbit + mapSize - 1 := by omega
      have isNext : n.startbit + offset + 1 = n.startbit + mapSize := by omega
      rw [forEachLoop_again inside ends, bitsFrom_succ, show bitsFrom n (offset + 1) 0 = [] from rfl,
        List.append_nil]
      cases next with
      | nil =>
          rw [ebitmapNext, behindNode]
          dsimp only
          rw [isNext]
      | cons first rest =>
          rw [ebitmapNext, if_pos isLast, behindNode]
  | succ left induction =>
      have inside : offset < mapSize := by omega
      rw [forEachLoop_again inside ends, bitsFrom_succ]
      have notLast : ¬n.startbit + offset = n.startbit + mapSize - 1 := by omega
      have isNext : ebitmapNext n next (n.startbit + offset) =
          (n :: next, n.startbit + (offset + 1)) := by
        cases next with
        | nil => rfl
        | cons first rest =>
            rw [ebitmapNext, if_neg notLast]
            rfl
      rw [isNext, induction (by omega), List.append_assoc]

theorem forEachLoop_finish {state : ForEach} (behind : highbit ≤ state.bit) :
    (forEachLoop highbit).run state = some state.bits := by
  apply Loop.run_of_finish
  simp only [forEachLoop]
  rw [if_neg (Nat.not_lt_of_le behind)]

theorem forEachLoop_nodes (canonical : Canonical (n :: next))
    (isHighbit : highbit = endOf (n :: next).getLast?) (bits : List Nat) :
    (forEachLoop highbit).run { n := n :: next, bit := n.startbit, bits } =
      some (bits ++ positions (n :: next)) := by
  induction next generalizing n bits with
  | nil =>
      have ends : n.startbit + mapSize ≤ highbit := Nat.le_of_eq isHighbit.symm
      have node := @forEachLoop_node n [] highbit 63 0 rfl ends bits
      rw [Nat.add_zero] at node
      rw [node, bitsFrom_zero, behindNode, forEachLoop_finish (Nat.le_of_eq isHighbit)]
      simp [positions]
  | cons second rest induction =>
      have ends : n.startbit + mapSize ≤ highbit :=
        isHighbit ▸ le_endOf canonical n List.mem_cons_self
      have node := @forEachLoop_node n (second :: rest) highbit 63 0 rfl ends bits
      rw [Nat.add_zero] at node
      rw [List.getLast?_cons_cons] at isHighbit
      rw [node, bitsFrom_zero, behindNode, induction canonical.tail isHighbit, List.append_assoc]
      rfl

end ForEach

theorem WellFormed.forEachBit {e : EbitmapChain} (wellFormed : e.WellFormed) :
    e.ebitmapForEachBit = some (positions e.node) := by
  rw [ebitmapForEachBit, startbit]
  cases nodes : e.node with
  | nil =>
      have isEmpty : e.highbit = 0 := by rw [wellFormed.isHighbit, nodes]; rfl
      exact forEachLoop_finish (Nat.le_of_eq isEmpty)
  | cons n next =>
      exact forEachLoop_nodes (nodes ▸ wellFormed.canonical) (nodes ▸ wellFormed.isHighbit) []

structure Represents (e : EbitmapChain) (set : Ebitmap) : Prop where
  wellFormed : e.WellFormed
  getBit : ∀ bit, e.ebitmapGetBit bit = Sepol.ebitmapGetBit set bit
  forEachBit : e.ebitmapForEachBit = some set.bits

theorem represents_of_mem {e : EbitmapChain} {set : Ebitmap} (wellFormed : e.WellFormed)
    (same : ∀ bit, Has e.node bit ↔ bit ∈ set.bits) : e.Represents set where
  wellFormed := wellFormed
  getBit bit := by
    rw [Bool.eq_iff_iff, wellFormed.getBit_iff, same, Sepol.ebitmapGetBit, decide_eq_true_iff]
  forEachBit := by
    have sameSet : e.ebitmap wellFormed = set :=
      Ebitmap.ext_mem fun bit => (mem_ebitmap wellFormed bit).trans (same bit)
    rw [wellFormed.forEachBit, ← sameSet]
    rfl

/-- Any sequence of calls, from the empty bitmap: it is refused when one of the bits is
among the last ones, and else gives the chain of the set that the calls describe. -/
theorem setBit_runs_refine_sets {calls : List (Nat × Bool)}
    (areUnsigned : ∀ call, call ∈ calls → call.1 < 2 ^ 32) :
    match runSetBits calls ebitmapInit with
    | .error rc => rc = -einval ∧ ∃ call, call ∈ calls ∧ overflows call.1
    | .ok e =>
        (∀ call, call ∈ calls → ¬overflows call.1) ∧ e.Represents (setBits calls .empty) := by
  by_cases refused : ∃ call, call ∈ calls ∧ overflows call.1
  · rcases refused with ⟨call, member, overflow⟩
    rw [runSetBits_refused wellFormed_init areUnsigned member overflow]
    exact ⟨rfl, call, member, overflow⟩
  · have inside : ∀ call, call ∈ calls → ¬overflows call.1 :=
      fun call member overflow => refused ⟨call, member, overflow⟩
    rcases wellFormed_init.runSetBits inside with ⟨e, ran, wellFormed, same⟩
    rw [ran]
    exact ⟨inside, represents_of_mem wellFormed same⟩

theorem manyBits_refine_sets :
    (∀ call, call ∈ [(70, true), (3, true), (70, false)] → call.1 < 2 ^ 32) ∧
      match runSetBits [(70, true), (3, true), (70, false)] ebitmapInit with
      | .error rc =>
          rc = -einval ∧ ∃ call, call ∈ [(70, true), (3, true), (70, false)] ∧ overflows call.1
      | .ok e =>
          (∀ call, call ∈ [(70, true), (3, true), (70, false)] → ¬overflows call.1) ∧
            e.Represents (setBits [(70, true), (3, true), (70, false)] .empty) :=
  ⟨by decide, @setBit_runs_refine_sets [(70, true), (3, true), (70, false)] (by decide)⟩

theorem mem_setBits_true (bits : List Nat) (e : Ebitmap) (bit : Nat) :
    bit ∈ (setBits (bits.map fun bit => (bit, true)) e).bits ↔ bit ∈ bits ∨ bit ∈ e.bits := by
  induction bits generalizing e with
  | nil => simp [setBits]
  | cons first rest induction =>
      have turn : setBits ((first :: rest).map fun bit => (bit, true)) e =
          setBits (rest.map fun bit => (bit, true)) (Sepol.ebitmapSetBit e first true) := rfl
      rw [turn, induction, mem_ebitmapSetBit_true, List.mem_cons]
      tauto

/-- The bitmaps that there are: the well-formed ones are those that calls of
`ebitmap_set_bit` make from the empty one. -/
theorem wellFormed_iff_reached (e : EbitmapChain) :
    e.WellFormed ↔
      ∃ calls, (∀ call, call ∈ calls → call.1 < 2 ^ 32) ∧ runSetBits calls ebitmapInit = .ok e := by
  constructor
  · intro wellFormed
    have inside : ∀ bit, bit ∈ positions e.node → ¬overflows bit := fun bit member =>
      wellFormed.not_overflows ((mem_positions e.node bit).mp member)
    refine ⟨(positions e.node).map fun bit => (bit, true), ?_, ?_⟩
    · intro call member
      rcases List.mem_map.mp member with ⟨bit, isBit, rfl⟩
      have notLast := inside bit isBit
      simp only [overflows, mapSize] at notLast ⊢
      omega
    · have allInside : ∀ call, call ∈ ((positions e.node).map fun bit => (bit, true)) →
          ¬overflows call.1 := by
        intro call member
        rcases List.mem_map.mp member with ⟨bit, isBit, rfl⟩
        exact inside bit isBit
      rcases wellFormed_init.runSetBits allInside with ⟨last, ran, wellFormedLast, same⟩
      rw [ran]
      refine congrArg _ (wellFormedLast.eq_of_has wellFormed fun bit => ?_)
      rw [same, mem_setBits_true, mem_ebitmap, mem_positions]
      exact or_iff_left fun has => absurd has.choose_spec.1 List.not_mem_nil
  · rintro ⟨calls, areUnsigned, ran⟩
    have refines := setBit_runs_refine_sets areUnsigned
    rw [ran] at refines
    exact refines.2.wellFormed

end EbitmapChain

end SuBinary.Sepol
