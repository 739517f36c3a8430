import SuBinary.Sepol.EbitmapChain
import SuBinary.Sepol.PolicyFile

/-! # Bitmaps in policy files -/

namespace SuBinary.Sepol.EbitmapChain

open SuBinary BlockSet Decoder

/-! ## Writing -/

def writeNode (n : EbitmapNode) : List Byte := leBytes 4 n.startbit ++ leBytes 8 n.map.toNat

def writeHeader (mapsize highbit count : Nat) : List Byte :=
  leBytes 4 mapsize ++ (leBytes 4 highbit ++ leBytes 4 count)

/-- The file has room for the bitmap. -/
def ebitmapWrite (e : EbitmapChain) : List Byte :=
  writeHeader mapSize e.highbit e.node.length ++ e.node.flatMap writeNode

/-! ## Reading -/

/-- The nodes that are still to come, behind the node `l`. -/
def readNodes (highbit : Nat) : Nat → Option EbitmapNode → PolicyReader (List EbitmapNode)
  | 0, _ => return []
  | left + 1, l => do
      let startbit ← nextNumber 4
      if startbit % mapSize ≠ 0 then throw (-einval)
      else if highbit - mapSize < startbit then throw (-einval)
      else do
        let map ← nextNumber 8
        if map = 0 then throw (-einval)
        else if l.any fun l => startbit ≤ l.startbit then throw (-einval)
        else do
          let n : EbitmapNode := { startbit, map := BitVec.ofNat mapSize map }
          let next ← readNodes highbit left (some n)
          return n :: next

def readBody (mapsize highbit count : Nat) : PolicyReader EbitmapChain :=
  if mapsize ≠ mapSize then throw (-einval)
  else if highbit = 0 then return { node := [], highbit := 0 }
  else if highbit % mapSize ≠ 0 then throw (-einval)
  else if count = 0 then throw (-einval)
  else do
    let node ← readNodes highbit count none
    if endOf node.getLast? ≠ highbit then throw (-einval)
    else return { node, highbit }

/-- The source reads the three numbers of the header with one call. -/
def ebitmapRead : PolicyReader EbitmapChain := do
  let mapsize ← nextNumber 4
  let highbit ← nextNumber 4
  let count ← nextNumber 4
  readBody mapsize highbit count

/-! ## Round trip -/

theorem not_any_startbit {l : Option EbitmapNode} {startbit : Nat} :
    ¬(l.any fun l => startbit ≤ l.startbit) = true ↔
      ∀ prev, l = some prev → prev.startbit < startbit := by
  cases l with
  | none => simp
  | some prev => simp [eq_comm]

theorem toNat_ne_zero {map : BitVec mapSize} (nonzero : map ≠ 0) : map.toNat ≠ 0 :=
  fun none => nonzero (BitVec.eq_of_toNat_eq none)

section RoundTrip

variable {highbit : Nat}

theorem decodes_readNodes (inside : highbit < 2 ^ 32) {nodes : List EbitmapNode}
    (canonical : Canonical nodes) (ends : ∀ n, n ∈ nodes → n.startbit + mapSize ≤ highbit)
    (l : Option EbitmapNode)
    (behind : ∀ prev, l = some prev → ∀ n, n ∈ nodes → prev.startbit < n.startbit) :
    Decodes id (readNodes highbit nodes.length l) (nodes.flatMap writeNode) nodes := by
  induction nodes generalizing l with
  | nil => exact Decodes.pure []
  | cons n next induction =>
      rcases canonical_cons.mp canonical with ⟨⟨⟨place, isPlace⟩, nonzero, before⟩, canonicalNext⟩
      have endsHere := ends n List.mem_cons_self
      have aligned : ¬n.startbit % mapSize ≠ 0 := by
        rw [isPlace, Nat.mul_mod_right]
        exact not_not.mpr rfl
      have isInside : ¬highbit - mapSize < n.startbit := by omega
      have startFits : n.startbit < 256 ^ 4 := by omega
      have mapFits : n.map.toNat < 256 ^ 8 := n.map.isLt
      rw [List.length_cons, readNodes, List.flatMap_cons, writeNode, List.append_assoc]
      refine (decodes_nextNumber startFits).bind ?_
      rw [if_neg aligned, if_neg isInside]
      refine (decodes_nextNumber mapFits).bind ?_
      rw [if_neg (toNat_ne_zero nonzero),
        if_neg (not_any_startbit.mpr fun prev isPrev => behind prev isPrev n List.mem_cons_self),
        BitVec.ofNat_toNat, BitVec.setWidth_eq]
      have later := induction canonicalNext
        (fun other member => ends other (List.mem_cons_of_mem _ member)) (some n)
        (fun prev isPrev => Option.some.inj isPrev ▸ before)
      exact later.map fun next => n :: next

end RoundTrip

theorem WellFormed.length_lt {e : EbitmapChain} (wellFormed : e.WellFormed) :
    e.node.length < 2 ^ 32 := by
  have distinct : (e.node.map (·.startbit)).Nodup := by
    rw [List.Nodup, List.pairwise_map]
    exact wellFormed.canonical.ascending.imp Nat.ne_of_lt
  have inRange : e.node.map (·.startbit) ⊆ List.range (2 ^ 32 - mapSize) := by
    intro start member
    rcases List.mem_map.mp member with ⟨n, isNode, rfl⟩
    have fits := wellFormed.fits n isNode
    exact List.mem_range.mpr (by omega)
  have shorter := (distinct.subperm inRange).length_le
  rw [List.length_map, List.length_range] at shorter
  exact Nat.lt_of_le_of_lt shorter (by decide)

theorem WellFormed.highbit_lt {e : EbitmapChain} (wellFormed : e.WellFormed) :
    e.highbit < 2 ^ 32 := by
  have ends : e.highbit ≤ 2 ^ 32 - 1 := by
    rw [wellFormed.isHighbit, endOf_le_iff wellFormed.canonical]
    intro n member
    have fits := wellFormed.fits n member
    omega
  omega

theorem WellFormed.highbit_aligned {e : EbitmapChain} (wellFormed : e.WellFormed) :
    e.highbit % mapSize = 0 := by
  rw [wellFormed.isHighbit]
  cases last : e.node.getLast? with
  | none => rfl
  | some n =>
      rw [endOf, Nat.add_mod_right]
      exact Nat.mod_eq_zero_of_dvd (wellFormed.canonical.aligned n (List.mem_of_getLast? last))

theorem decodes_header {mapsize highbit count : Nat} {items : List Byte} {e : EbitmapChain}
    (mapsizeFits : mapsize < 2 ^ 32) (highbitFits : highbit < 2 ^ 32) (countFits : count < 2 ^ 32)
    (decodes : Decodes id (readBody mapsize highbit count) items e) :
    Decodes id ebitmapRead (writeHeader mapsize highbit count ++ items) e := by
  rw [writeHeader, List.append_assoc, List.append_assoc]
  exact (decodes_nextNumber mapsizeFits).bind
    ((decodes_nextNumber highbitFits).bind ((decodes_nextNumber countFits).bind decodes))

/-- A bitmap that ends at zero has no nodes, whatever its count says. -/
theorem decodes_empty {count : Nat} (countFits : count < 2 ^ 32) :
    Decodes id ebitmapRead (writeHeader mapSize 0 count) ebitmapInit := by
  have header := decodes_header (by decide) (by decide) countFits
    (show Decodes id (readBody mapSize 0 count) [] ebitmapInit from Decodes.pure _)
  rwa [List.append_nil] at header

theorem WellFormed.eq_init {e : EbitmapChain} (wellFormed : e.WellFormed) (empty : e.node = []) :
    e = ebitmapInit := by
  have isHighbit := wellFormed.isHighbit
  rw [empty] at isHighbit
  cases e
  cases empty
  cases isHighbit
  rfl

theorem WellFormed.highbit_ne_zero {e : EbitmapChain} (wellFormed : e.WellFormed)
    (someNode : e.node ≠ []) : e.highbit ≠ 0 := by
  rcases List.exists_cons_of_ne_nil someNode with ⟨n, next, nodes⟩
  have ends := le_endOf wellFormed.canonical n (nodes ▸ List.mem_cons_self)
  rw [← wellFormed.isHighbit] at ends
  simp only [mapSize] at ends
  omega

theorem WellFormed.decodes_write {e : EbitmapChain} (wellFormed : e.WellFormed) :
    Decodes id ebitmapRead (ebitmapWrite e) e := by
  by_cases empty : e.node = []
  · rw [wellFormed.eq_init empty, ebitmapWrite]
    exact (List.append_nil (writeHeader mapSize 0 0)).symm ▸ decodes_empty (by decide)
  · have ends : ∀ n, n ∈ e.node → n.startbit + mapSize ≤ e.highbit := by
      rw [← endOf_le_iff wellFormed.canonical, wellFormed.isHighbit]
    have someNode : e.node.length ≠ 0 := fun none => empty (List.length_eq_zero_iff.mp none)
    have read := decodes_readNodes wellFormed.highbit_lt wellFormed.canonical ends none
      (fun prev isPrev => absurd isPrev (by simp))
    apply decodes_header (by decide) wellFormed.highbit_lt wellFormed.length_lt
    rw [readBody, if_neg (not_not.mpr rfl), if_neg (wellFormed.highbit_ne_zero empty),
      if_neg (not_not.mpr wellFormed.highbit_aligned), if_neg someNode,
      ← List.append_nil (e.node.flatMap writeNode)]
    refine read.bind ?_
    rw [if_neg (not_not.mpr wellFormed.isHighbit.symm)]
    exact Decodes.pure e

/-! ## What is accepted -/

structure ReadNodes (highbit left : Nat) (l : Option EbitmapNode) (nodes : List EbitmapNode)
    (items : List Byte) : Prop where
  isWritten : items = nodes.flatMap writeNode
  isCount : nodes.length = left
  canonical : Canonical nodes
  ends : ∀ n, n ∈ nodes → n.startbit + mapSize ≤ highbit
  behind : ∀ prev, l = some prev → ∀ n, n ∈ nodes → prev.startbit < n.startbit

theorem accepts_readNodes {highbit : Nat} (room : mapSize ≤ highbit) (left : Nat)
    (l : Option EbitmapNode) :
    Accepts (readNodes highbit left l) (ReadNodes highbit left l) := by
  induction left generalizing l with
  | zero =>
      refine (Accepts.pure []).mono ?_
      rintro nodes items ⟨rfl, rfl⟩
      exact ⟨rfl, rfl, canonical_nil, by simp, by simp⟩
  | succ left induction =>
      rw [readNodes]
      apply (accepts_nextNumber 4).bind
      rintro startbit startItems ⟨startFits, rfl⟩
      apply Accepts.ite (fun _ => Accepts.throw _)
      intro aligned
      apply Accepts.ite (fun _ => Accepts.throw _)
      intro inside
      apply (accepts_nextNumber 8).bind
      rintro map mapItems ⟨mapFits, rfl⟩
      apply Accepts.ite (fun _ => Accepts.throw _)
      intro nonzero
      apply Accepts.ite (fun _ => Accepts.throw _)
      intro behind
      apply (induction _).bind
      intro next nextItems read
      refine (Accepts.pure _).mono ?_
      rintro nodes items ⟨rfl, rfl⟩
      have isMap : (BitVec.ofNat mapSize map).toNat = map := Nat.mod_eq_of_lt mapFits
      refine ⟨?_, ?_, ?_, ?_, ?_⟩
      · rw [List.flatMap_cons, writeNode, isMap, read.isWritten]
        simp
      · rw [List.length_cons, read.isCount]
      · refine canonical_cons.mpr
          ⟨⟨Nat.dvd_of_mod_eq_zero (not_not.mp aligned), fun none => nonzero ?_, read.behind _ rfl⟩,
            read.canonical⟩
        rw [← isMap]
        exact congrArg BitVec.toNat none
      · intro n member
        rcases List.mem_cons.mp member with rfl | member
        · dsimp only
          omega
        · exact read.ends n member
      · intro prev isPrev n member
        have before := not_any_startbit.mp behind prev isPrev
        rcases List.mem_cons.mp member with rfl | member
        · exact before
        · exact before.trans (read.behind _ rfl n member)

theorem accepts_readBody (mapsize highbit count : Nat) (fits : highbit < 2 ^ 32) :
    Accepts (readBody mapsize highbit count) fun e items =>
      e.WellFormed ∧ mapsize = mapSize ∧ e.highbit = highbit ∧
        items = e.node.flatMap writeNode ∧ (highbit ≠ 0 → e.node.length = count) := by
  apply Accepts.ite (fun _ => Accepts.throw _)
  intro isMapSize
  apply Accepts.ite
  · intro none
    refine (Accepts.pure _).mono ?_
    rintro e items ⟨rfl, rfl⟩
    exact ⟨wellFormed_init, not_not.mp isMapSize, none.symm, rfl, absurd none⟩
  · intro some
    apply Accepts.ite (fun _ => Accepts.throw _)
    intro aligned
    apply Accepts.ite (fun _ => Accepts.throw _)
    intro _
    have room : mapSize ≤ highbit :=
      Nat.le_of_dvd (Nat.pos_of_ne_zero some) (Nat.dvd_of_mod_eq_zero (not_not.mp aligned))
    apply (accepts_readNodes room count none).bind
    intro node nodeItems read
    apply Accepts.ite (fun _ => Accepts.throw _)
    intro isHighbit
    refine (Accepts.pure _).mono ?_
    rintro e items ⟨rfl, rfl⟩
    refine ⟨⟨read.canonical, fun n member => ?_, (not_not.mp isHighbit).symm⟩,
      not_not.mp isMapSize, rfl, ?_, fun _ => read.isCount⟩
    · exact Nat.lt_of_le_of_lt (read.ends n member) fits
    · rw [List.append_nil, read.isWritten]

/-- Reading accepts what writing makes of the well-formed bitmaps, and nothing else, except
that it takes any count for the empty bitmap. -/
theorem ebitmapRead_iff (data rest : List Byte) (e : EbitmapChain) :
    ebitmapRead data = .ok (e, rest) ↔
      e.WellFormed ∧ (data = ebitmapWrite e ++ rest ∨
        e = ebitmapInit ∧ ∃ count, count < 2 ^ 32 ∧ data = writeHeader mapSize 0 count ++ rest) := by
  constructor
  · intro accepted
    have accepts : Accepts ebitmapRead fun e items => e.WellFormed ∧
        ∃ count, count < 2 ^ 32 ∧ items = writeHeader mapSize e.highbit count ++
          e.node.flatMap writeNode ∧ (e.highbit ≠ 0 → e.node.length = count) := by
      apply (accepts_nextNumber 4).bind
      rintro mapsize mapsizeItems ⟨-, rfl⟩
      apply (accepts_nextNumber 4).bind
      rintro highbit highbitItems ⟨highbitFits, rfl⟩
      apply (accepts_nextNumber 4).bind
      rintro count countItems ⟨countFits, rfl⟩
      refine (accepts_readBody mapsize highbit count highbitFits).mono ?_
      rintro e items ⟨wellFormed, rfl, rfl, rfl, isCount⟩
      exact ⟨wellFormed, count, countFits, by simp [writeHeader], isCount⟩
    rcases accepts data e rest accepted with ⟨items, rfl, wellFormed, count, fits, rfl, isCount⟩
    refine ⟨wellFormed, ?_⟩
    by_cases empty : e.node = []
    · have isInit := wellFormed.eq_init empty
      subst isInit
      exact Or.inr ⟨rfl, count, fits, by simp [ebitmapInit]⟩
    · left
      rw [ebitmapWrite, isCount (wellFormed.highbit_ne_zero empty)]
  · rintro ⟨wellFormed, rfl | ⟨rfl, count, fits, rfl⟩⟩
    · exact wellFormed.decodes_write rest
    · exact decodes_empty fits rest

end SuBinary.Sepol.EbitmapChain
