import Mathlib

/-! # Sets in blocks

Sets of numbers that are kept in blocks of one width: where a block starts and one bit for
each number in it. Blocks that are aligned, ascending and not empty are determined by the
set.
-/

namespace SuBinary

structure BitBlock (width : Nat) where
  startbit : Nat
  map : BitVec width
deriving DecidableEq

variable {width : Nat}

def BitBlock.Has (block : BitBlock width) (bit : Nat) : Prop :=
  block.startbit ≤ bit ∧ block.map.getLsbD (bit - block.startbit) = true

namespace BlockSet

def Has (blocks : List (BitBlock width)) (bit : Nat) : Prop :=
  ∃ block, block ∈ blocks ∧ block.Has bit

/-- The bits of the block that starts at a number, none where no block starts. -/
def wordAt : List (BitBlock width) → Nat → BitVec width
  | [], _ => 0
  | block :: rest, startbit =>
      if block.startbit = startbit then block.map else wordAt rest startbit

theorem wordAt_cons (block : BitBlock width) (rest : List (BitBlock width)) (startbit : Nat) :
    wordAt (block :: rest) startbit =
      if block.startbit = startbit then block.map else wordAt rest startbit :=
  rfl

structure Canonical (blocks : List (BitBlock width)) : Prop where
  aligned : ∀ block, block ∈ blocks → width ∣ block.startbit
  nonzero : ∀ block, block ∈ blocks → block.map ≠ 0
  ascending : blocks.Pairwise fun earlier later => earlier.startbit < later.startbit

theorem canonical_nil : Canonical ([] : List (BitBlock width)) where
  aligned _ member := absurd member List.not_mem_nil
  nonzero _ member := absurd member List.not_mem_nil
  ascending := .nil

theorem canonical_cons {block : BitBlock width} {rest : List (BitBlock width)} :
    Canonical (block :: rest) ↔
      (width ∣ block.startbit ∧ block.map ≠ 0 ∧
        ∀ later, later ∈ rest → block.startbit < later.startbit) ∧ Canonical rest := by
  constructor
  · intro canonical
    rcases List.pairwise_cons.mp canonical.ascending with ⟨first, ascending⟩
    exact ⟨⟨canonical.aligned block List.mem_cons_self, canonical.nonzero block List.mem_cons_self,
      first⟩, fun later member => canonical.aligned later (List.mem_cons_of_mem _ member),
      fun later member => canonical.nonzero later (List.mem_cons_of_mem _ member), ascending⟩
  · rintro ⟨⟨aligned, nonzero, first⟩, rest⟩
    refine ⟨fun other member => ?_, fun other member => ?_,
      List.pairwise_cons.mpr ⟨first, rest.ascending⟩⟩
    · rcases List.mem_cons.mp member with rfl | member
      · exact aligned
      · exact rest.aligned other member
    · rcases List.mem_cons.mp member with rfl | member
      · exact nonzero
      · exact rest.nonzero other member

theorem Canonical.tail {block : BitBlock width} {rest : List (BitBlock width)}
    (canonical : Canonical (block :: rest)) : Canonical rest :=
  (canonical_cons.mp canonical).2

theorem has_cons {block : BitBlock width} {rest : List (BitBlock width)} {bit : Nat} :
    Has (block :: rest) bit ↔ block.Has bit ∨ Has rest bit := by
  simp only [Has, List.mem_cons, exists_eq_or_imp]

/-! ## Words -/

section Words

variable {blocks : List (BitBlock width)} {startbit : Nat}

theorem wordAt_eq_zero (apart : ∀ block, block ∈ blocks → block.startbit ≠ startbit) :
    wordAt blocks startbit = 0 := by
  induction blocks with
  | nil => rfl
  | cons block rest induction =>
      rw [wordAt, if_neg (apart block List.mem_cons_self)]
      exact induction fun later member => apart later (List.mem_cons_of_mem _ member)

theorem wordAt_eq_zero_of_before (before : ∀ block, block ∈ blocks → startbit < block.startbit) :
    wordAt blocks startbit = 0 :=
  wordAt_eq_zero fun block member => (before block member).ne'

theorem Canonical.wordAt_of_mem (canonical : Canonical blocks) {block : BitBlock width}
    (member : block ∈ blocks) : wordAt blocks block.startbit = block.map := by
  induction blocks with
  | nil => cases member
  | cons first rest induction =>
      rcases canonical_cons.mp canonical with ⟨⟨-, -, before⟩, canonicalRest⟩
      rw [wordAt]
      rcases List.mem_cons.mp member with rfl | member
      · rw [if_pos rfl]
      · rw [if_neg (before block member).ne]
        exact induction canonicalRest member

theorem mem_of_wordAt (some : wordAt blocks startbit ≠ 0) :
    ⟨startbit, wordAt blocks startbit⟩ ∈ blocks := by
  induction blocks with
  | nil => exact absurd rfl some
  | cons first rest induction =>
      rw [wordAt] at some ⊢
      split at some
      · rename_i same
        subst same
        rw [if_pos rfl]
        exact List.mem_cons_self
      · rename_i other
        rw [if_neg other]
        exact List.mem_cons_of_mem _ (induction some)

theorem Canonical.mem_iff (canonical : Canonical blocks) (block : BitBlock width) :
    block ∈ blocks ↔ block.map ≠ 0 ∧ wordAt blocks block.startbit = block.map := by
  constructor
  · exact fun member => ⟨canonical.nonzero block member, canonical.wordAt_of_mem member⟩
  · rintro ⟨nonzero, same⟩
    have member := mem_of_wordAt (same ▸ nonzero)
    rwa [same] at member

theorem Canonical.has_iff (canonical : Canonical blocks) (bit : Nat) :
    Has blocks bit ↔ (wordAt blocks (bit / width * width)).getLsbD (bit % width) = true := by
  constructor
  · rintro ⟨block, member, notBefore, isSet⟩
    rcases canonical.aligned block member with ⟨place, isPlace⟩
    have inside := BitVec.lt_of_getLsbD isSet
    have positive : 0 < width := Nat.zero_lt_of_lt inside
    have split : bit = bit - block.startbit + width * place := by omega
    have isStart : bit / width * width = block.startbit := by
      rw [split, Nat.add_mul_div_left _ _ positive, Nat.div_eq_of_lt inside, Nat.zero_add, isPlace,
        Nat.mul_comm]
    have isOffset : bit % width = bit - block.startbit := by
      conv_lhs => rw [split, Nat.add_mul_mod_self_left, Nat.mod_eq_of_lt inside]
    rw [isStart, isOffset, canonical.wordAt_of_mem member]
    exact isSet
  · intro isSet
    have someWord : wordAt blocks (bit / width * width) ≠ 0 := by
      intro none
      rw [none] at isSet
      simp at isSet
    refine ⟨_, mem_of_wordAt someWord, Nat.div_mul_le_self bit width, ?_⟩
    have offset : bit - bit / width * width = bit % width := by
      rw [Nat.mul_comm, Nat.mod_eq_sub]
    rw [offset]
    exact isSet

end Words

theorem Canonical.eq_of_wordAt {first second : List (BitBlock width)}
    (canonicalFirst : Canonical first) (canonicalSecond : Canonical second)
    (same : ∀ startbit, wordAt first startbit = wordAt second startbit) : first = second := by
  have sameMembers : ∀ block, block ∈ first ↔ block ∈ second := fun block => by
    rw [canonicalFirst.mem_iff, canonicalSecond.mem_iff, same]
  have nodup : ∀ {blocks : List (BitBlock width)}, Canonical blocks → blocks.Nodup :=
    fun canonical => canonical.ascending.imp fun before equal => by simp [equal] at before
  have permuted := (List.perm_ext_iff_of_nodup (nodup canonicalFirst) (nodup canonicalSecond)).mpr
    sameMembers
  exact permuted.eq_of_pairwise
    (fun _ _ _ _ before after => absurd before (Nat.lt_asymm after))
    canonicalFirst.ascending canonicalSecond.ascending

theorem Canonical.wordAt_unaligned {blocks : List (BitBlock width)} (canonical : Canonical blocks)
    {startbit : Nat} (unaligned : ¬width ∣ startbit) : wordAt blocks startbit = 0 :=
  wordAt_eq_zero fun block member same => unaligned (same ▸ canonical.aligned block member)

theorem Canonical.getLsbD_wordAt {blocks : List (BitBlock width)} (canonical : Canonical blocks)
    (place : Nat) {offset : Nat} (inside : offset < width) :
    (wordAt blocks (width * place)).getLsbD offset = true ↔ Has blocks (width * place + offset) := by
  have positive : 0 < width := Nat.zero_lt_of_lt inside
  rw [canonical.has_iff, Nat.mul_add_div positive, Nat.div_eq_of_lt inside, Nat.mul_add_mod,
    Nat.mod_eq_of_lt inside, Nat.add_zero, Nat.mul_comm place]

section Pairs

variable {first second : List (BitBlock width)} (canonicalFirst : Canonical first)
  (canonicalSecond : Canonical second)

include canonicalFirst canonicalSecond

theorem Canonical.eq_of_has (same : ∀ bit, Has first bit ↔ Has second bit) : first = second := by
  apply canonicalFirst.eq_of_wordAt canonicalSecond
  intro startbit
  by_cases aligned : width ∣ startbit
  · rcases aligned with ⟨place, rfl⟩
    apply BitVec.eq_of_getLsbD_eq
    intro offset inside
    rw [Bool.eq_iff_iff, canonicalFirst.getLsbD_wordAt place inside, same,
      canonicalSecond.getLsbD_wordAt place inside]
  · rw [canonicalFirst.wordAt_unaligned aligned, canonicalSecond.wordAt_unaligned aligned]

theorem Canonical.covers_iff :
    (∀ startbit, wordAt first startbit &&& wordAt second startbit = wordAt second startbit) ↔
      ∀ bit, Has second bit → Has first bit := by
  constructor
  · intro covers bit has
    rw [canonicalSecond.has_iff, ← covers, BitVec.getLsbD_and, Bool.and_eq_true] at has
    exact (canonicalFirst.has_iff bit).mpr has.1
  · intro subset startbit
    by_cases aligned : width ∣ startbit
    · rcases aligned with ⟨place, rfl⟩
      apply BitVec.eq_of_getLsbD_eq
      intro offset inside
      rw [BitVec.getLsbD_and, Bool.eq_iff_iff, Bool.and_eq_true,
        canonicalFirst.getLsbD_wordAt place inside, canonicalSecond.getLsbD_wordAt place inside]
      exact and_iff_right_iff_imp.mpr (subset _)
    · rw [canonicalSecond.wordAt_unaligned aligned]
      exact BitVec.and_zero

theorem Canonical.meets_iff :
    (∃ startbit, wordAt first startbit &&& wordAt second startbit ≠ 0) ↔
      ∃ bit, Has first bit ∧ Has second bit := by
  constructor
  · rintro ⟨startbit, meet⟩
    have aligned : width ∣ startbit := by
      by_contra unaligned
      rw [canonicalFirst.wordAt_unaligned unaligned] at meet
      exact meet BitVec.zero_and
    rcases aligned with ⟨place, rfl⟩
    by_contra disjoint
    refine meet (BitVec.eq_of_getLsbD_eq fun offset inside => ?_)
    rw [BitVec.getLsbD_and, show (0 : BitVec width).getLsbD offset = false by simp,
      Bool.and_eq_false_iff]
    by_contra both
    rw [not_or, Bool.not_eq_false, Bool.not_eq_false,
      canonicalFirst.getLsbD_wordAt place inside, canonicalSecond.getLsbD_wordAt place inside] at both
    exact disjoint ⟨_, both⟩
  · rintro ⟨bit, hasFirst, hasSecond⟩
    refine ⟨bit / width * width, fun apart => ?_⟩
    rw [canonicalFirst.has_iff] at hasFirst
    rw [canonicalSecond.has_iff] at hasSecond
    have noBit := congrArg (BitVec.getLsbD · (bit % width)) apart
    simp [hasFirst, hasSecond] at noBit

end Pairs

/-! ## Lists of the numbers -/

end BlockSet

def BitBlock.positions (block : BitBlock width) : List Nat :=
  ((List.range width).filter fun offset => block.map.getLsbD offset).map (block.startbit + ·)

theorem BitBlock.mem_positions (block : BitBlock width) (bit : Nat) :
    bit ∈ block.positions ↔ block.Has bit := by
  simp only [positions, List.mem_map, List.mem_filter, List.mem_range, BitBlock.Has]
  constructor
  · rintro ⟨offset, ⟨-, isSet⟩, rfl⟩
    exact ⟨Nat.le_add_right _ _, by rwa [Nat.add_sub_cancel_left]⟩
  · rintro ⟨notBefore, isSet⟩
    exact ⟨bit - block.startbit, ⟨BitVec.lt_of_getLsbD isSet, isSet⟩,
      Nat.add_sub_of_le notBefore⟩

theorem BitBlock.positions_ascending (block : BitBlock width) :
    block.positions.Pairwise (· < ·) := by
  rw [positions, List.pairwise_map]
  exact (List.pairwise_lt_range.filter _).imp fun before => Nat.add_lt_add_left before _

theorem BitBlock.Has.lt {block : BitBlock width} {bit : Nat} (has : block.Has bit) :
    bit < block.startbit + width := by
  have inside := BitVec.lt_of_getLsbD has.2
  omega

namespace BlockSet

def positions (blocks : List (BitBlock width)) : List Nat := blocks.flatMap BitBlock.positions

theorem mem_positions (blocks : List (BitBlock width)) (bit : Nat) :
    bit ∈ positions blocks ↔ Has blocks bit := by
  simp only [positions, List.mem_flatMap, BitBlock.mem_positions, Has]

theorem Canonical.apart {block : BitBlock width} {rest : List (BitBlock width)}
    (canonical : Canonical (block :: rest)) {later : BitBlock width} (member : later ∈ rest) :
    block.startbit + width ≤ later.startbit := by
  rcases canonical_cons.mp canonical with ⟨⟨⟨place, isPlace⟩, -, before⟩, canonicalRest⟩
  rcases canonicalRest.aligned later member with ⟨laterPlace, isLaterPlace⟩
  have order := before later member
  rw [isPlace, isLaterPlace] at order
  have steps : place + 1 ≤ laterPlace := lt_of_mul_lt_mul_left' order
  calc block.startbit + width = width * (place + 1) := by rw [isPlace, Nat.mul_succ]
    _ ≤ width * laterPlace := Nat.mul_le_mul_left width steps
    _ = later.startbit := isLaterPlace.symm

theorem Canonical.positions_ascending {blocks : List (BitBlock width)}
    (canonical : Canonical blocks) : (positions blocks).Pairwise (· < ·) := by
  induction blocks with
  | nil => exact .nil
  | cons block rest induction =>
      rw [positions, List.flatMap_cons]
      refine List.pairwise_append.mpr
        ⟨block.positions_ascending, induction canonical.tail, fun bit isHere other isLater => ?_⟩
      have here := ((block.mem_positions bit).mp isHere).lt
      rcases (mem_positions rest other).mp isLater with ⟨later, member, has⟩
      have apart := canonical.apart member
      have notBefore := has.1
      omega

/-! ## Changing a word -/

/-- A block that has become empty is dropped. -/
def keep (block : BitBlock width) (rest : List (BitBlock width)) : List (BitBlock width) :=
  if block.map = 0 then rest else block :: rest

def edit (startbit : Nat) (change : BitVec width → BitVec width) :
    List (BitBlock width) → List (BitBlock width)
  | [] => keep { startbit, map := change 0 } []
  | block :: rest =>
      if startbit < block.startbit then keep { startbit, map := change 0 } (block :: rest)
      else if startbit = block.startbit then keep { startbit, map := change block.map } rest
      else block :: edit startbit change rest

section Edit

variable {blocks : List (BitBlock width)} {startbit : Nat}

theorem wordAt_keep {block : BitBlock width}
    (before : ∀ later, later ∈ blocks → block.startbit < later.startbit) (other : Nat) :
    wordAt (keep block blocks) other =
      if other = block.startbit then block.map else wordAt blocks other := by
  rw [keep]
  split
  · rename_i empty
    split
    · rename_i same
      rw [same, empty, wordAt_eq_zero_of_before before]
    · rfl
  · rw [wordAt]
    simp only [eq_comm]

theorem canonical_keep {block : BitBlock width} (aligned : width ∣ block.startbit)
    (before : ∀ later, later ∈ blocks → block.startbit < later.startbit)
    (canonical : Canonical blocks) : Canonical (keep block blocks) := by
  rw [keep]
  split
  · exact canonical
  · rename_i some
    exact canonical_cons.mpr ⟨⟨aligned, some, before⟩, canonical⟩

theorem before_of_lt {block : BitBlock width} (canonical : Canonical (block :: blocks))
    (before : startbit < block.startbit) (later : BitBlock width)
    (member : later ∈ block :: blocks) : startbit < later.startbit := by
  rcases List.mem_cons.mp member with rfl | member
  · exact before
  · exact before.trans ((canonical_cons.mp canonical).1.2.2 later member)

theorem wordAt_edit (canonical : Canonical blocks) (change : BitVec width → BitVec width)
    (other : Nat) :
    wordAt (edit startbit change blocks) other =
      if other = startbit then change (wordAt blocks startbit) else wordAt blocks other := by
  induction blocks with
  | nil =>
      rw [edit, wordAt_keep fun _ member => absurd member List.not_mem_nil]
      rfl
  | cons block rest induction =>
      have first := (canonical_cons.mp canonical).1.2.2
      rw [edit]
      split
      · rename_i before
        have all := before_of_lt canonical before
        rw [wordAt_keep all, wordAt_eq_zero_of_before all]
      · split
        · rename_i same
          subst same
          rw [@wordAt_keep _ _ { startbit := block.startbit, map := change block.map } first]
          simp only [wordAt, if_true]
          split
          · rfl
          · rename_i otherStart
            rw [if_neg (Ne.symm otherStart)]
        · rename_i notSame
          rw [wordAt, induction canonical.tail]
          split
          · rename_i isFirst
            rw [if_neg (fun same => notSame (same.symm.trans isFirst.symm)), wordAt, if_pos isFirst]
          · rename_i notFirst
            rw [wordAt, if_neg (Ne.symm notSame), wordAt, if_neg notFirst]

theorem mem_edit {change : BitVec width → BitVec width} {block : BitBlock width}
    (member : block ∈ edit startbit change blocks) :
    block.startbit = startbit ∨ block ∈ blocks := by
  have kept : ∀ {map : BitVec width} {rest : List (BitBlock width)},
      block ∈ keep { startbit, map } rest → block.startbit = startbit ∨ block ∈ rest := by
    intro map rest member
    rw [keep] at member
    split at member
    · exact Or.inr member
    · rcases List.mem_cons.mp member with rfl | member
      · exact Or.inl rfl
      · exact Or.inr member
  induction blocks with
  | nil => exact kept member
  | cons first rest induction =>
      rw [edit] at member
      split at member
      · exact kept member
      · split at member
        · exact (kept member).imp_right (List.mem_cons_of_mem _)
        · rcases List.mem_cons.mp member with rfl | member
          · exact Or.inr List.mem_cons_self
          · exact (induction member).imp_right (List.mem_cons_of_mem _)

theorem canonical_edit (canonical : Canonical blocks) (aligned : width ∣ startbit)
    (change : BitVec width → BitVec width) : Canonical (edit startbit change blocks) := by
  induction blocks with
  | nil => exact canonical_keep aligned (fun _ member => absurd member List.not_mem_nil) canonical
  | cons block rest induction =>
      rcases canonical_cons.mp canonical with ⟨⟨alignedFirst, nonzero, first⟩, canonicalRest⟩
      rw [edit]
      split
      · rename_i before
        exact canonical_keep aligned (before_of_lt canonical before) canonical
      · rename_i notBefore
        split
        · rename_i same
          exact canonical_keep aligned (same ▸ first) canonicalRest
        · rename_i notSame
          refine canonical_cons.mpr ⟨⟨alignedFirst, nonzero, fun later member => ?_⟩,
            induction canonicalRest⟩
          rcases mem_edit member with isStart | member
          · omega
          · exact first later member

end Edit

def editBit (bit : Nat) (value : Bool) (map : BitVec width) : BitVec width :=
  if value then map ||| BitVec.twoPow width bit else map &&& ~~~BitVec.twoPow width bit

theorem getLsbD_editBit {bit other : Nat} (inside : bit < width) (value : Bool)
    (map : BitVec width) :
    (editBit bit value map).getLsbD other =
      if other = bit then value else map.getLsbD other := by
  cases value with
  | true =>
      rw [editBit, if_pos rfl, BitVec.getLsbD_or, BitVec.getLsbD_twoPow]
      by_cases same : other = bit
      · simp [same, inside]
      · simp [same, Ne.symm same]
  | false =>
      rw [editBit, if_neg Bool.false_ne_true, BitVec.getLsbD_and, BitVec.getLsbD_not,
        BitVec.getLsbD_twoPow]
      by_cases same : other = bit
      · simp [same, inside]
      · by_cases insideOther : other < width
        · simp [same, Ne.symm same, insideOther]
        · simp [same, BitVec.getLsbD_of_ge map other (Nat.le_of_not_lt insideOther)]

theorem has_edit_editBit {blocks : List (BitBlock width)} (canonical : Canonical blocks)
    (positive : 0 < width) (bit : Nat) (value : Bool) (other : Nat) :
    Has (edit (bit / width * width) (editBit (bit % width) value) blocks) other ↔
      if other = bit then value = true else Has blocks other := by
  have aligned : width ∣ bit / width * width := Nat.dvd_mul_left _ _
  rw [(canonical_edit canonical aligned _).has_iff, canonical.has_iff, wordAt_edit canonical]
  by_cases sameBlock : other / width * width = bit / width * width
  · have samePlace : other / width = bit / width := Nat.eq_of_mul_eq_mul_right positive sameBlock
    rw [if_pos sameBlock, getLsbD_editBit (Nat.mod_lt _ positive), sameBlock]
    have sameIff : other % width = bit % width ↔ other = bit := by
      constructor
      · intro sameOffset
        rw [← Nat.div_add_mod other width, ← Nat.div_add_mod bit width, samePlace, sameOffset]
      · rintro rfl
        rfl
    simp only [sameIff]
    split
    · rfl
    · rfl
  · have different : other ≠ bit := fun same => sameBlock (same ▸ rfl)
    rw [if_neg sameBlock, if_neg different]

end BlockSet

end SuBinary
