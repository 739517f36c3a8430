import SuBinary.Sepol.EbitmapChain

/-! # Bitmaps as sets

The operations of `ebitmap.c` on whole bitmaps are the operations on the sets of their bits.
-/

namespace SuBinary.Sepol.EbitmapChain

open SuBinary BlockSet

/-! ## Operations -/

def orLoop : List EbitmapNode → List EbitmapNode → List EbitmapNode
  | [], n2 => n2
  | n1 :: next1, [] => n1 :: orLoop next1 []
  | n1 :: next1, n2 :: next2 =>
      if n1.startbit = n2.startbit then
        { startbit := n1.startbit, map := n1.map ||| n2.map } :: orLoop next1 next2
      else if n1.startbit < n2.startbit then n1 :: orLoop next1 (n2 :: next2)
      else n2 :: orLoop (n1 :: next1) next2
termination_by n1 n2 => n1.length + n2.length

def ebitmapOr (e1 e2 : EbitmapChain) : EbitmapChain where
  node := orLoop e1.node e2.node
  highbit := if e2.highbit < e1.highbit then e1.highbit else e2.highbit

/-- The result is `dst`. -/
def ebitmapUnion (dst e1 : EbitmapChain) : EbitmapChain := ebitmapOr dst e1

def ebitmapAnd (e1 e2 : EbitmapChain) : Except Int EbitmapChain :=
  (List.range (min e1.highbit e2.highbit)).foldlM
    (fun dst i =>
      if e1.ebitmapGetBit i && e2.ebitmapGetBit i then dst.ebitmapSetBit i true else .ok dst)
    ebitmapInit

def ebitmapXor (e1 e2 : EbitmapChain) : Except Int EbitmapChain :=
  (List.range (max e1.highbit e2.highbit)).foldlM
    (fun dst i => dst.ebitmapSetBit i (e1.ebitmapGetBit i ^^ e2.ebitmapGetBit i)) ebitmapInit

def ebitmapNot (e1 : EbitmapChain) (maxbit : Nat) : Except Int EbitmapChain :=
  (List.range maxbit).foldlM (fun dst i => dst.ebitmapSetBit i (!e1.ebitmapGetBit i)) ebitmapInit

def ebitmapAndnot (e1 e2 : EbitmapChain) (maxbit : Nat) : Except Int EbitmapChain := do
  let e3 ← ebitmapNot e2 maxbit
  ebitmapAnd e1 e3

def ebitmapCardinality (e1 : EbitmapChain) : Nat :=
  (List.range' e1.startbit (e1.highbit - e1.startbit)).countP e1.ebitmapGetBit

def cmpLoop : List EbitmapNode → List EbitmapNode → Bool
  | n1 :: next1, n2 :: next2 =>
      if n1.startbit = n2.startbit ∧ n1.map = n2.map then cmpLoop next1 next2 else false
  | [], [] => true
  | _, _ => false

def ebitmapCmp (e1 e2 : EbitmapChain) : Bool :=
  if e1.highbit ≠ e2.highbit then false else cmpLoop e1.node e2.node

/-- The count is returned as an `int`. -/
def ebitmapHammingDistance (e1 e2 : EbitmapChain) : Int :=
  if ebitmapCmp e1 e2 then 0
  else
    match ebitmapXor e1 e2 with
    | .error _ => -1
    | .ok tmp => (BitVec.ofNat 32 tmp.ebitmapCardinality).toInt

def containsLoop : List EbitmapNode → List EbitmapNode → Bool
  | _, [] => true
  | [], _ :: _ => false
  | n1 :: next1, n2 :: next2 =>
      if n1.startbit ≤ n2.startbit then
        if n1.startbit < n2.startbit then containsLoop next1 (n2 :: next2)
        else if n1.map &&& n2.map ≠ n2.map then false
        else containsLoop next1 next2
      else false

def ebitmapContains (e1 e2 : EbitmapChain) : Bool :=
  if e1.highbit < e2.highbit then false else containsLoop e1.node e2.node

def matchAnyLoop : List EbitmapNode → List EbitmapNode → Bool
  | [], _ => false
  | _ :: _, [] => false
  | n1 :: next1, n2 :: next2 =>
      if n1.startbit < n2.startbit then matchAnyLoop next1 (n2 :: next2)
      else if n2.startbit < n1.startbit then matchAnyLoop (n1 :: next1) next2
      else if n1.map &&& n2.map ≠ 0 then true
      else matchAnyLoop next1 next2
termination_by n1 n2 => n1.length + n2.length

def ebitmapMatchAny (e1 e2 : EbitmapChain) : Bool := matchAnyLoop e1.node e2.node

/-! ## Sets -/

def bitSet (e : EbitmapChain) : Set Nat := { bit | e.ebitmapGetBit bit = true }

theorem WellFormed.mem_bitSet {e : EbitmapChain} (wellFormed : e.WellFormed) (bit : Nat) :
    bit ∈ e.bitSet ↔ Has e.node bit :=
  wellFormed.getBit_iff bit

/-! ## Union -/

theorem forall_orLoop (first second : List EbitmapNode) (holds : Nat → Prop) :
    (∀ n, n ∈ orLoop first second → holds n.startbit) ↔
      (∀ n, n ∈ first → holds n.startbit) ∧ ∀ n, n ∈ second → holds n.startbit := by
  fun_induction orLoop first second with
  | case1 second => simp
  | case2 n1 next1 induction => simp_all
  | case3 n1 next1 n2 next2 same induction =>
      simp only [List.forall_mem_cons, induction, ← same]
      tauto
  | case4 n1 next1 n2 next2 _ _ induction =>
      simp only [List.forall_mem_cons, induction]
      tauto
  | case5 n1 next1 n2 next2 _ _ induction =>
      simp only [List.forall_mem_cons, induction]
      tauto

theorem canonical_orLoop {first second : List EbitmapNode} (canonicalFirst : Canonical first)
    (canonicalSecond : Canonical second) : Canonical (orLoop first second) := by
  fun_induction orLoop first second with
  | case1 second => exact canonicalSecond
  | case2 n1 next1 induction =>
      rcases canonical_cons.mp canonicalFirst with ⟨⟨aligned, nonzero, before⟩, canonicalNext⟩
      refine canonical_cons.mpr ⟨⟨aligned, nonzero, ?_⟩, induction canonicalNext canonicalSecond⟩
      exact (forall_orLoop next1 [] _).mpr ⟨before, fun _ member => absurd member List.not_mem_nil⟩
  | case3 n1 next1 n2 next2 same induction =>
      rcases canonical_cons.mp canonicalFirst with ⟨⟨aligned, nonzero, before⟩, canonicalNext⟩
      rcases canonical_cons.mp canonicalSecond with ⟨⟨_, _, before2⟩, canonicalNext2⟩
      refine canonical_cons.mpr ⟨⟨aligned, ?_, ?_⟩, induction canonicalNext canonicalNext2⟩
      · exact fun empty => nonzero (BitVec.or_eq_zero_iff.mp empty).1
      · exact (forall_orLoop next1 next2 _).mpr ⟨before, same ▸ before2⟩
  | case4 n1 next1 n2 next2 _ less induction =>
      rcases canonical_cons.mp canonicalFirst with ⟨⟨aligned, nonzero, before⟩, canonicalNext⟩
      refine canonical_cons.mpr ⟨⟨aligned, nonzero, ?_⟩, induction canonicalNext canonicalSecond⟩
      exact (forall_orLoop next1 (n2 :: next2) _).mpr
        ⟨before, fun n member => before_of_lt canonicalSecond less n member⟩
  | case5 n1 next1 n2 next2 notSame notLess induction =>
      rcases canonical_cons.mp canonicalSecond with ⟨⟨aligned, nonzero, before⟩, canonicalNext⟩
      refine canonical_cons.mpr ⟨⟨aligned, nonzero, ?_⟩, induction canonicalFirst canonicalNext⟩
      exact (forall_orLoop (n1 :: next1) next2 _).mpr
        ⟨fun n member => before_of_lt canonicalFirst (by omega) n member, before⟩

theorem wordAt_orLoop {first second : List EbitmapNode} (canonicalFirst : Canonical first)
    (canonicalSecond : Canonical second) (start : Nat) :
    wordAt (orLoop first second) start = wordAt first start ||| wordAt second start := by
  fun_induction orLoop first second with
  | case1 second => exact (BitVec.zero_or).symm
  | case2 n1 next1 induction =>
      rw [wordAt_cons, wordAt_cons, induction canonicalFirst.tail canonicalSecond]
      split
      · exact (BitVec.or_zero).symm
      · rfl
  | case3 n1 next1 n2 next2 same induction =>
      simp only [wordAt, ← same, induction canonicalFirst.tail canonicalSecond.tail]
      split
      · rfl
      · rfl
  | case4 n1 next1 n2 next2 _ less induction =>
      rw [wordAt_cons, wordAt_cons n1, induction canonicalFirst.tail canonicalSecond]
      split
      · rename_i isFirst
        rw [@wordAt_eq_zero_of_before _ (n2 :: next2) start
          (isFirst ▸ before_of_lt canonicalSecond less)]
        exact (BitVec.or_zero).symm
      · rfl
  | case5 n1 next1 n2 next2 notSame notLess induction =>
      have less : n2.startbit < n1.startbit := by omega
      rw [wordAt_cons, wordAt_cons n2, induction canonicalFirst canonicalSecond.tail]
      split
      · rename_i isSecond
        rw [wordAt_eq_zero_of_before (isSecond ▸ before_of_lt canonicalFirst less)]
        exact (BitVec.zero_or).symm
      · rfl

section Pairs

variable {e1 e2 : EbitmapChain} (wellFormed1 : e1.WellFormed) (wellFormed2 : e2.WellFormed)

include wellFormed1 wellFormed2

theorem wellFormed_or : (ebitmapOr e1 e2).WellFormed where
  canonical := canonical_orLoop wellFormed1.canonical wellFormed2.canonical
  fits := (forall_orLoop e1.node e2.node fun start => start + mapSize < 2 ^ 32).mpr
    ⟨wellFormed1.fits, wellFormed2.fits⟩
  isHighbit := by
    have canonical := canonical_orLoop wellFormed1.canonical wellFormed2.canonical
    have bounds : ∀ bound, endOf (orLoop e1.node e2.node).getLast? ≤ bound ↔
        e1.highbit ≤ bound ∧ e2.highbit ≤ bound := by
      intro bound
      rw [endOf_le_iff canonical, wellFormed1.isHighbit, wellFormed2.isHighbit,
        endOf_le_iff wellFormed1.canonical, endOf_le_iff wellFormed2.canonical]
      exact forall_orLoop e1.node e2.node fun start => start + mapSize ≤ bound
    have isMax : (ebitmapOr e1 e2).highbit = max e1.highbit e2.highbit := by
      rw [ebitmapOr]
      dsimp only
      split
      · omega
      · omega
    rw [isMax]
    apply Nat.le_antisymm
    · exact max_le_iff.mpr ((bounds _).mp (Nat.le_refl _))
    · exact (bounds _).mpr ⟨le_max_left _ _, le_max_right _ _⟩

theorem bitSet_or : (ebitmapOr e1 e2).bitSet = e1.bitSet ∪ e2.bitSet := by
  ext bit
  have canonical := canonical_orLoop wellFormed1.canonical wellFormed2.canonical
  rw [(wellFormed_or wellFormed1 wellFormed2).mem_bitSet, Set.mem_union, wellFormed1.mem_bitSet,
    wellFormed2.mem_bitSet, wellFormed1.canonical.has_iff, wellFormed2.canonical.has_iff,
    ebitmapOr, canonical.has_iff, wordAt_orLoop wellFormed1.canonical wellFormed2.canonical,
    BitVec.getLsbD_or, Bool.or_eq_true]

end Pairs

/-! ## Bit by bit -/

section Fill

variable {write : EbitmapChain → Nat → Except Int EbitmapChain} {holds : Nat → Prop}

theorem fill_succeeds {bound : Nat}
    (writes : ∀ i, i < bound → ∀ dst, dst.WellFormed → ¬Has dst.node i →
      ∃ next, write dst i = .ok next ∧ next.WellFormed ∧
        ∀ other, Has next.node other ↔ (other = i ∧ holds i) ∨ Has dst.node other) :
    ∃ dst, (List.range bound).foldlM write ebitmapInit = .ok dst ∧ dst.WellFormed ∧
      ∀ bit, Has dst.node bit ↔ bit < bound ∧ holds bit := by
  induction bound with
  | zero =>
      refine ⟨ebitmapInit, rfl, wellFormed_init, fun bit => ?_⟩
      refine iff_of_false (fun has => ?_) fun below => Nat.not_lt_zero bit below.1
      exact List.not_mem_nil has.choose_spec.1
  | succ bound induction =>
      rcases induction fun i below => writes i (Nat.lt_succ_of_lt below) with
        ⟨dst, ran, wellFormed, has⟩
      have fresh : ¬Has dst.node bound := fun isSet =>
        Nat.lt_irrefl bound ((has bound).mp isSet).1
      rcases writes bound (Nat.lt_succ_self bound) dst wellFormed fresh with
        ⟨next, wrote, wellFormedNext, hasNext⟩
      refine ⟨next, ?_, wellFormedNext, fun bit => ?_⟩
      · rw [List.range_succ, List.foldlM_append, ran]
        change (write dst bound >>= fun last => pure last) = _
        rw [wrote]
        rfl
      · rw [hasNext, has, Nat.lt_succ_iff_lt_or_eq]
        constructor
        · rintro (⟨rfl, isHeld⟩ | ⟨below, isHeld⟩)
          · exact ⟨Or.inr rfl, isHeld⟩
          · exact ⟨Or.inl below, isHeld⟩
        · rintro ⟨below | rfl, isHeld⟩
          · exact Or.inr ⟨below, isHeld⟩
          · exact Or.inl ⟨rfl, isHeld⟩

theorem setBit_fresh {dst : EbitmapChain} (wellFormed : dst.WellFormed) {i : Nat}
    (inside : ¬overflows i) (fresh : ¬Has dst.node i) (value : Bool) :
    ∃ next, dst.ebitmapSetBit i value = .ok next ∧ next.WellFormed ∧
      ∀ other, Has next.node other ↔ (other = i ∧ value = true) ∨ Has dst.node other := by
  rcases wellFormed.setBit inside value with ⟨next, ran, wellFormedNext, has⟩
  refine ⟨next, ran, wellFormedNext, fun other => ?_⟩
  rw [has]
  by_cases same : other = i
  · subst same
    simp [fresh]
  · simp [same]

end Fill

section Operations

variable {e1 e2 : EbitmapChain} (wellFormed1 : e1.WellFormed) (wellFormed2 : e2.WellFormed)

include wellFormed1 wellFormed2

theorem and_succeeds :
    ∃ e, ebitmapAnd e1 e2 = .ok e ∧ e.WellFormed ∧ e.bitSet = e1.bitSet ∩ e2.bitSet := by
  have filled := @fill_succeeds
    (fun dst i =>
      if e1.ebitmapGetBit i && e2.ebitmapGetBit i then dst.ebitmapSetBit i true else .ok dst)
    (fun bit => bit ∈ e1.bitSet ∧ bit ∈ e2.bitSet) (min e1.highbit e2.highbit) ?_
  · rcases filled with ⟨e, ran, wellFormed, has⟩
    refine ⟨e, ran, wellFormed, Set.ext fun bit => ?_⟩
    rw [wellFormed.mem_bitSet, has, Set.mem_inter_iff, and_iff_right_iff_imp]
    rintro ⟨isFirst, isSecond⟩
    exact lt_min_iff.mpr ⟨wellFormed1.lt_highbit ((wellFormed1.mem_bitSet bit).mp isFirst),
      wellFormed2.lt_highbit ((wellFormed2.mem_bitSet bit).mp isSecond)⟩
  · intro i below dst wellFormed fresh
    have inside := wellFormed1.highbit_fits (lt_min_iff.mp below).1
    split
    · rename_i both
      have isBoth : i ∈ e1.bitSet ∧ i ∈ e2.bitSet := Bool.and_eq_true_iff.mp both
      simpa only [isBoth, and_self, and_true] using setBit_fresh wellFormed inside fresh true
    · rename_i notBoth
      refine ⟨dst, rfl, wellFormed, fun other => (or_iff_right ?_).symm⟩
      exact fun isBoth => notBoth (Bool.and_eq_true_iff.mpr isBoth.2)

theorem xor_succeeds :
    ∃ e, ebitmapXor e1 e2 = .ok e ∧ e.WellFormed ∧ e.bitSet = symmDiff e1.bitSet e2.bitSet := by
  have filled := @fill_succeeds
    (fun dst i => dst.ebitmapSetBit i (e1.ebitmapGetBit i ^^ e2.ebitmapGetBit i))
    (fun bit => (e1.ebitmapGetBit bit ^^ e2.ebitmapGetBit bit) = true)
    (max e1.highbit e2.highbit) ?_
  · rcases filled with ⟨e, ran, wellFormed, has⟩
    refine ⟨e, ran, wellFormed, Set.ext fun bit => ?_⟩
    have isDifference : bit ∈ symmDiff e1.bitSet e2.bitSet ↔
        (e1.ebitmapGetBit bit ^^ e2.ebitmapGetBit bit) = true := by
      rw [Set.mem_symmDiff]
      change (e1.ebitmapGetBit bit = true ∧ ¬e2.ebitmapGetBit bit = true ∨
        e2.ebitmapGetBit bit = true ∧ ¬e1.ebitmapGetBit bit = true) ↔ _
      cases e1.ebitmapGetBit bit <;> cases e2.ebitmapGetBit bit <;> simp
    rw [wellFormed.mem_bitSet, has, isDifference, and_iff_right_iff_imp, ← isDifference]
    rintro (⟨isFirst, -⟩ | ⟨isSecond, -⟩)
    · exact lt_max_iff.mpr (Or.inl (wellFormed1.lt_highbit ((wellFormed1.mem_bitSet bit).mp isFirst)))
    · exact lt_max_iff.mpr (Or.inr (wellFormed2.lt_highbit ((wellFormed2.mem_bitSet bit).mp isSecond)))
  · intro i below dst wellFormed fresh
    have inside : ¬overflows i := (lt_max_iff.mp below).elim wellFormed1.highbit_fits
      wellFormed2.highbit_fits
    exact setBit_fresh wellFormed inside fresh _

end Operations

section Not

variable (e1 : EbitmapChain) {maxbit : Nat}

theorem not_succeeds (inside : maxbit ≤ 2 ^ 32 - mapSize) :
    ∃ e, ebitmapNot e1 maxbit = .ok e ∧ e.WellFormed ∧
      e.bitSet = { bit | bit < maxbit ∧ bit ∉ e1.bitSet } := by
  have filled := @fill_succeeds (fun dst i => dst.ebitmapSetBit i (!e1.ebitmapGetBit i))
    (fun bit => (!e1.ebitmapGetBit bit) = true) maxbit ?_
  · rcases filled with ⟨e, ran, wellFormed, has⟩
    refine ⟨e, ran, wellFormed, Set.ext fun bit => ?_⟩
    rw [wellFormed.mem_bitSet, has]
    simp [bitSet]
  · intro i below dst wellFormed fresh
    exact setBit_fresh wellFormed (Nat.not_le_of_lt (Nat.lt_of_lt_of_le below inside)) fresh _

omit e1 in
theorem foldlM_refused {write : EbitmapChain → Nat → Except Int EbitmapChain}
    {front back : List Nat} {i : Nat} {start middle : EbitmapChain} {rc : Int}
    (ran : front.foldlM write start = .ok middle) (refused : write middle i = .error rc) :
    (front ++ i :: back).foldlM write start = .error rc := by
  rw [List.foldlM_append, ran]
  exact congrArg (· >>= fun next => back.foldlM write next) refused

theorem not_refused (outside : 2 ^ 32 - mapSize < maxbit) :
    ebitmapNot e1 maxbit = .error (-einval) := by
  rcases not_succeeds e1 (Nat.le_refl (2 ^ 32 - mapSize)) with ⟨dst, ran, -, -⟩
  rcases Nat.exists_eq_add_of_lt outside with ⟨left, rfl⟩
  rw [ebitmapNot, Nat.add_assoc, List.range_add, List.range_succ_eq_map, List.map_cons]
  exact foldlM_refused ran (ebitmapSetBit_refused (by decide) _ (Nat.le_refl _))

theorem andnot_succeeds {e1 e2 : EbitmapChain} (wellFormed1 : e1.WellFormed)
    (inside : maxbit ≤ 2 ^ 32 - mapSize) :
    ∃ e, ebitmapAndnot e1 e2 maxbit = .ok e ∧ e.WellFormed ∧
      e.bitSet = { bit | bit ∈ e1.bitSet ∧ bit ∉ e2.bitSet ∧ bit < maxbit } := by
  rcases not_succeeds e2 inside with ⟨e3, ran3, wellFormed3, same3⟩
  rcases and_succeeds wellFormed1 wellFormed3 with ⟨e, ran, wellFormed, same⟩
  refine ⟨e, ?_, wellFormed, ?_⟩
  · rw [ebitmapAndnot, ran3]
    exact ran
  · rw [same, same3]
    ext bit
    exact and_congr_right fun _ => and_comm

end Not

/-! ## Comparisons -/

theorem cmpLoop_iff (first second : List EbitmapNode) :
    cmpLoop first second = true ↔ first = second := by
  fun_induction cmpLoop first second with
  | case1 n1 next1 n2 next2 same induction =>
      rw [induction, List.cons.injEq]
      refine (and_iff_right ?_).symm
      cases n1
      cases n2
      simpa using same
  | case2 n1 next1 n2 next2 different =>
      refine iff_of_false Bool.false_ne_true fun same => ?_
      rw [List.cons.injEq] at same
      exact different ⟨congrArg _ same.1, congrArg _ same.1⟩
  | case3 => simp
  | case4 first second notBoth notNeither =>
      refine iff_of_false Bool.false_ne_true ?_
      rintro rfl
      cases first with
      | nil => exact notNeither rfl rfl
      | cons n next => exact notBoth n next n next rfl rfl

theorem containsLoop_iff {first second : List EbitmapNode} (canonicalFirst : Canonical first)
    (canonicalSecond : Canonical second) :
    containsLoop first second = true ↔
      ∀ start, wordAt first start &&& wordAt second start = wordAt second start := by
  fun_induction containsLoop first second with
  | case1 first => simp [wordAt]
  | case2 n2 next2 =>
      refine iff_of_false Bool.false_ne_true fun covers => ?_
      have here := covers n2.startbit
      rw [wordAt_cons n2, if_pos rfl] at here
      exact (canonical_cons.mp canonicalSecond).1.2.1 (here.symm.trans BitVec.zero_and)
  | case3 n1 next1 n2 next2 _ less induction =>
      rw [induction canonicalFirst.tail canonicalSecond]
      refine forall_congr' fun start => ?_
      rw [wordAt_cons n1]
      split
      · rename_i isFirst
        rw [@wordAt_eq_zero_of_before _ (n2 :: next2) start
          (isFirst ▸ before_of_lt canonicalSecond less)]
        simp
      · rfl
  | case4 n1 next1 n2 next2 notBefore notLess different =>
      refine iff_of_false Bool.false_ne_true fun covers => different ?_
      have same : n2.startbit = n1.startbit := by omega
      have here := covers n1.startbit
      rwa [wordAt_cons, wordAt_cons, if_pos rfl, if_pos same] at here
  | case5 n1 next1 n2 next2 notBefore notLess covers induction =>
      have same : n1.startbit = n2.startbit := by omega
      rw [induction canonicalFirst.tail canonicalSecond.tail]
      refine forall_congr' fun start => ?_
      rw [wordAt_cons n1, wordAt_cons n2, same]
      split
      · rename_i isFirst
        have none2 : wordAt next2 start = 0 :=
          wordAt_eq_zero_of_before (isFirst ▸ (canonical_cons.mp canonicalSecond).1.2.2)
        rw [none2]
        exact iff_of_true BitVec.and_zero (not_not.mp covers)
      · rfl
  | case6 n1 next1 n2 next2 behind =>
      refine iff_of_false Bool.false_ne_true fun covers => ?_
      have here := covers n2.startbit
      rw [wordAt_eq_zero_of_before (before_of_lt canonicalFirst (Nat.lt_of_not_le behind)),
        wordAt_cons n2, if_pos rfl] at here
      exact (canonical_cons.mp canonicalSecond).1.2.1 (here.symm.trans BitVec.zero_and)

theorem matchAnyLoop_iff {first second : List EbitmapNode} (canonicalFirst : Canonical first)
    (canonicalSecond : Canonical second) :
    matchAnyLoop first second = true ↔
      ∃ start, wordAt first start &&& wordAt second start ≠ 0 := by
  fun_induction matchAnyLoop first second with
  | case1 second => simp [wordAt]
  | case2 n1 next1 => simp [wordAt]
  | case3 n1 next1 n2 next2 less induction =>
      rw [induction canonicalFirst.tail canonicalSecond]
      refine exists_congr fun start => ?_
      rw [wordAt_cons n1]
      split
      · rename_i isFirst
        rw [@wordAt_eq_zero_of_before _ (n2 :: next2) start
          (isFirst ▸ before_of_lt canonicalSecond less)]
        simp
      · rfl
  | case4 n1 next1 n2 next2 _ less induction =>
      rw [induction canonicalFirst canonicalSecond.tail]
      refine exists_congr fun start => ?_
      rw [wordAt_cons n2]
      split
      · rename_i isSecond
        rw [wordAt_eq_zero_of_before (isSecond ▸ before_of_lt canonicalFirst less)]
        simp
      · rfl
  | case5 n1 next1 n2 next2 notLess notMore both =>
      refine iff_of_true rfl ⟨n1.startbit, ?_⟩
      have same : n2.startbit = n1.startbit := by omega
      rwa [wordAt_cons, wordAt_cons, if_pos rfl, if_pos same]
  | case6 n1 next1 n2 next2 notLess notMore neither induction =>
      have same : n1.startbit = n2.startbit := by omega
      rw [induction canonicalFirst.tail canonicalSecond.tail]
      refine exists_congr fun start => ?_
      rw [wordAt_cons n1, wordAt_cons n2, same]
      split
      · rename_i isFirst
        have none2 : wordAt next2 start = 0 :=
          wordAt_eq_zero_of_before (isFirst ▸ (canonical_cons.mp canonicalSecond).1.2.2)
        rw [none2]
        exact iff_of_false (not_not.mpr BitVec.and_zero) neither
      · rfl

section Pairs

variable {e1 e2 : EbitmapChain} (wellFormed1 : e1.WellFormed) (wellFormed2 : e2.WellFormed)

include wellFormed1 wellFormed2

theorem cmp_iff : ebitmapCmp e1 e2 = true ↔ e1.bitSet = e2.bitSet := by
  rw [ebitmapCmp]
  constructor
  · intro same
    split at same
    · cases same
    · rename_i sameHighbit
      have sameNodes := (cmpLoop_iff _ _).mp same
      ext bit
      rw [wellFormed1.mem_bitSet, wellFormed2.mem_bitSet, sameNodes]
  · intro same
    have equal : e1 = e2 := wellFormed1.eq_of_has wellFormed2 fun bit => by
      rw [← wellFormed1.mem_bitSet, ← wellFormed2.mem_bitSet, same]
    rw [equal, if_neg (not_not.mpr rfl), cmpLoop_iff]

theorem contains_iff : ebitmapContains e1 e2 = true ↔ e2.bitSet ⊆ e1.bitSet := by
  have subset : e2.bitSet ⊆ e1.bitSet ↔
      ∀ start, wordAt e1.node start &&& wordAt e2.node start = wordAt e2.node start := by
    rw [wellFormed1.canonical.covers_iff wellFormed2.canonical]
    exact forall_congr' fun bit => by rw [wellFormed1.mem_bitSet, wellFormed2.mem_bitSet]
  rw [subset, ebitmapContains]
  split
  · rename_i shorter
    refine iff_of_false Bool.false_ne_true fun covers => Nat.not_le_of_lt shorter ?_
    rw [wellFormed2.isHighbit, endOf_le_iff wellFormed2.canonical]
    intro n member
    have isWord := wellFormed2.canonical.wordAt_of_mem member
    have someWord : wordAt e1.node n.startbit ≠ 0 := by
      intro none
      have here := covers n.startbit
      rw [none, isWord] at here
      exact wellFormed2.canonical.nonzero n member (here.symm.trans BitVec.zero_and)
    rw [wellFormed1.isHighbit]
    exact le_endOf wellFormed1.canonical ⟨n.startbit, wordAt e1.node n.startbit⟩
      (mem_of_wordAt someWord)
  · exact containsLoop_iff wellFormed1.canonical wellFormed2.canonical

theorem matchAny_iff : ebitmapMatchAny e1 e2 = true ↔ (e1.bitSet ∩ e2.bitSet).Nonempty := by
  rw [ebitmapMatchAny, matchAnyLoop_iff wellFormed1.canonical wellFormed2.canonical,
    wellFormed1.canonical.meets_iff wellFormed2.canonical]
  exact exists_congr fun bit => by
    rw [Set.mem_inter_iff, wellFormed1.mem_bitSet, wellFormed2.mem_bitSet]

end Pairs

theorem WellFormed.startbit_le {e : EbitmapChain} (wellFormed : e.WellFormed) {bit : Nat}
    (has : Has e.node bit) : e.startbit ≤ bit := by
  rcases has with ⟨n, member, has⟩
  rw [startbit]
  split
  · exact Nat.zero_le _
  · rename_i first rest isNode
    rw [isNode] at member
    rcases List.mem_cons.mp member with rfl | member
    · exact has.1
    · have canonical := wellFormed.canonical
      rw [isNode] at canonical
      exact ((canonical_cons.mp canonical).1.2.2 n member).le.trans has.1

theorem WellFormed.cardinality {e : EbitmapChain} (wellFormed : e.WellFormed) :
    ebitmapCardinality e = e.bitSet.ncard := by
  have isFinset : e.bitSet =
      ((List.range' e.startbit (e.highbit - e.startbit)).filter e.ebitmapGetBit).toFinset := by
    ext bit
    rw [Finset.mem_coe, List.mem_toFinset, List.mem_filter, List.mem_range'_1]
    refine (and_iff_right_of_imp fun isSet => ?_).symm
    have has := (wellFormed.mem_bitSet bit).mp isSet
    have notBefore := wellFormed.startbit_le has
    have inside := wellFormed.lt_highbit has
    omega
  rw [isFinset, Set.ncard_coe_finset,
    List.toFinset_card_of_nodup ((List.nodup_range' 1 Nat.one_pos).filter _), ebitmapCardinality,
    List.countP_eq_length_filter]

theorem hamming_eq {e1 e2 : EbitmapChain} (wellFormed1 : e1.WellFormed)
    (wellFormed2 : e2.WellFormed) :
    ebitmapHammingDistance e1 e2 = (BitVec.ofNat 32 (symmDiff e1.bitSet e2.bitSet).ncard).toInt := by
  rw [ebitmapHammingDistance]
  split
  · rename_i same
    rw [(cmp_iff wellFormed1 wellFormed2).mp same, symmDiff_self, Set.bot_eq_empty, Set.ncard_empty]
    rfl
  · rcases xor_succeeds wellFormed1 wellFormed2 with ⟨tmp, ran, wellFormed, same⟩
    rw [ran, ← same, ← wellFormed.cardinality]

/-! ## Results -/

/-- The operations on well-formed bitmaps make well-formed ones, of the sets that they are
named for. A bound beyond the last bits that a bitmap can have makes them fail. -/
theorem operations_on_sets {e1 e2 : EbitmapChain} (wellFormed1 : e1.WellFormed)
    (wellFormed2 : e2.WellFormed) (maxbit : Nat) :
    ((ebitmapUnion e1 e2).WellFormed ∧ (ebitmapUnion e1 e2).bitSet = e1.bitSet ∪ e2.bitSet) ∧
      (∃ e, ebitmapAnd e1 e2 = .ok e ∧ e.WellFormed ∧ e.bitSet = e1.bitSet ∩ e2.bitSet) ∧
      (∃ e, ebitmapXor e1 e2 = .ok e ∧ e.WellFormed ∧
        e.bitSet = symmDiff e1.bitSet e2.bitSet) ∧
      if maxbit ≤ 2 ^ 32 - mapSize then
        (∃ e, ebitmapNot e1 maxbit = .ok e ∧ e.WellFormed ∧
          e.bitSet = { bit | bit < maxbit ∧ bit ∉ e1.bitSet }) ∧
        ∃ e, ebitmapAndnot e1 e2 maxbit = .ok e ∧ e.WellFormed ∧
          e.bitSet = { bit | bit ∈ e1.bitSet ∧ bit ∉ e2.bitSet ∧ bit < maxbit }
      else
        ebitmapNot e1 maxbit = .error (-einval) ∧
          ebitmapAndnot e1 e2 maxbit = .error (-einval) := by
  refine ⟨⟨wellFormed_or wellFormed1 wellFormed2, bitSet_or wellFormed1 wellFormed2⟩,
    and_succeeds wellFormed1 wellFormed2, xor_succeeds wellFormed1 wellFormed2, ?_⟩
  split
  · rename_i inside
    exact ⟨not_succeeds e1 inside, andnot_succeeds wellFormed1 inside⟩
  · rename_i outside
    have refused := not_refused e2 (Nat.lt_of_not_le outside)
    refine ⟨not_refused e1 (Nat.lt_of_not_le outside), ?_⟩
    rw [ebitmapAndnot, refused]
    rfl

/-- The comparisons decide equality, inclusion and whether two sets meet; the counts are
the sizes of sets, and a distance is one as far as an `int` has it. -/
theorem comparisons_decide {e1 e2 : EbitmapChain} (wellFormed1 : e1.WellFormed)
    (wellFormed2 : e2.WellFormed) :
    (ebitmapCmp e1 e2 = true ↔ e1.bitSet = e2.bitSet) ∧
      (ebitmapContains e1 e2 = true ↔ e2.bitSet ⊆ e1.bitSet) ∧
      (ebitmapMatchAny e1 e2 = true ↔ (e1.bitSet ∩ e2.bitSet).Nonempty) ∧
      ebitmapCardinality e1 = e1.bitSet.ncard ∧
      ebitmapHammingDistance e1 e2 =
        (BitVec.ofNat 32 (symmDiff e1.bitSet e2.bitSet).ncard).toInt :=
  ⟨cmp_iff wellFormed1 wellFormed2, contains_iff wellFormed1 wellFormed2,
    matchAny_iff wellFormed1 wellFormed2, wellFormed1.cardinality,
    hamming_eq wellFormed1 wellFormed2⟩

/-- The bits 0, 3 and 65. -/
def threeBits : EbitmapChain where
  node := [{ startbit := 0, map := 9 }, { startbit := 64, map := 2 }]
  highbit := 128

theorem wellFormed_threeBits : threeBits.WellFormed where
  canonical :=
    { aligned := by decide
      nonzero := by decide
      ascending := by decide }
  fits := by decide
  isHighbit := by decide

/-- The bits 3 and 70. -/
def twoBits : EbitmapChain where
  node := [{ startbit := 0, map := 8 }, { startbit := 64, map := 64 }]
  highbit := 128

theorem wellFormed_twoBits : twoBits.WellFormed where
  canonical :=
    { aligned := by decide
      nonzero := by decide
      ascending := by decide }
  fits := by decide
  isHighbit := by decide

theorem threeBits_operations :
    threeBits.WellFormed ∧ twoBits.WellFormed ∧
      (ebitmapUnion threeBits twoBits).bitSet = threeBits.bitSet ∪ twoBits.bitSet ∧
      (∃ e, ebitmapAnd threeBits twoBits = .ok e ∧ e.WellFormed ∧
        e.bitSet = threeBits.bitSet ∩ twoBits.bitSet) ∧
      (∃ e, ebitmapXor threeBits twoBits = .ok e ∧ e.WellFormed ∧
        e.bitSet = symmDiff threeBits.bitSet twoBits.bitSet) ∧
      (∃ e, ebitmapNot threeBits 66 = .ok e ∧ e.WellFormed ∧
        e.bitSet = { bit | bit < 66 ∧ bit ∉ threeBits.bitSet }) ∧
      ∃ e, ebitmapAndnot threeBits twoBits 66 = .ok e ∧ e.WellFormed ∧
        e.bitSet = { bit | bit ∈ threeBits.bitSet ∧ bit ∉ twoBits.bitSet ∧ bit < 66 } := by
  rcases operations_on_sets wellFormed_threeBits wellFormed_twoBits 66 with
    ⟨union, intersection, difference, bounded⟩
  rw [if_pos (by decide)] at bounded
  exact ⟨wellFormed_threeBits, wellFormed_twoBits, union.2, intersection, difference, bounded⟩

theorem threeBits_comparisons :
    threeBits.WellFormed ∧ twoBits.WellFormed ∧
      threeBits.bitSet ≠ twoBits.bitSet ∧ ¬twoBits.bitSet ⊆ threeBits.bitSet ∧
      (threeBits.bitSet ∩ twoBits.bitSet).Nonempty ∧ threeBits.bitSet.ncard = 3 := by
  rcases comparisons_decide wellFormed_threeBits wellFormed_twoBits with
    ⟨cmp, contains, matchAny, cardinality, -⟩
  refine ⟨wellFormed_threeBits, wellFormed_twoBits, mt cmp.mpr ?_, mt contains.mpr ?_,
    matchAny.mp ?_, cardinality.symm.trans ?_⟩
  · decide
  · decide
  · decide +kernel
  · decide

end SuBinary.Sepol.EbitmapChain
