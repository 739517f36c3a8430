import SuBinary.Magiskpolicy.TypeNumbering

/-! # The two attribute maps

`type_attr_map` says which attributes a type has, `attr_type_map` which types
an attribute has. Both have a bit for a type itself, but `attr_type_map` has
none for an attribute itself.
-/

namespace SuBinary.Magiskpolicy

open SuBinary Sepol

/-! ## The maps of the loader -/

structure MapsAgree (p : Policy) : Prop where
  itself : ∀ i, i < p.pTypes.nprim → HasRowBit p.typeAttrMap i i
  transposed : ∀ i j, i < p.pTypes.nprim → j < p.pTypes.nprim →
    (HasRowBit p.attrTypeMap j i ↔
      (i ≠ j ∧ HasRowBit p.typeAttrMap i j) ∨ (i = j ∧ p.isPlainType i = true))

/-- The maps of a policy as `policydb_read` leaves them. -/
def MapsLoaded (p : Policy) : Prop :=
  ∃ rows, rows.length = p.pTypes.nprim ∧
    readAttrMaps p.isPlainType rows = some (p.typeAttrMap, p.attrTypeMap)

theorem foldl_setRowBit (bits : List Nat) (bit : Nat) (rows : List Ebitmap)
    (inside : ∀ row, row ∈ bits → row < rows.length) :
    (bits.foldl (fun rows row => setRowBit rows row bit) rows).length = rows.length ∧
      ∀ row other, HasRowBit (bits.foldl (fun rows row => setRowBit rows row bit) rows) row other ↔
        HasRowBit rows row other ∨ (row ∈ bits ∧ other = bit) := by
  induction bits generalizing rows with
  | nil => simp
  | cons first rest induction =>
      have restInside : ∀ row, row ∈ rest → row < (setRowBit rows first bit).length := by
        intro row member
        rw [length_setRowBit]
        exact inside row (List.mem_cons_of_mem first member)
      rcases induction (setRowBit rows first bit) restInside with ⟨sameLength, bits⟩
      refine ⟨by rw [List.foldl_cons, sameLength, length_setRowBit], fun row other => ?_⟩
      rw [List.foldl_cons, bits, hasRowBit_setRowBit]
      have firstInside := inside first List.mem_cons_self
      simp only [firstInside, true_and, List.mem_cons]
      tauto

structure ReadSoFar (isPlainType : Nat → Bool) (nprim : Nat) (front : List Ebitmap)
    (maps : List Ebitmap × List Ebitmap) : Prop where
  typeRows : maps.1.length = nprim
  attrRows : maps.2.length = nprim
  typeBits : ∀ i j, i < front.length →
    (HasRowBit maps.1 i j ↔ j = i ∨ HasRowBit front i j)
  attrBits : ∀ i j, HasRowBit maps.2 j i ↔
    i < front.length ∧ ((i ≠ j ∧ HasRowBit front i j) ∨ (i = j ∧ isPlainType i = true))

theorem readSoFar_start (isPlainType : Nat → Bool) (nprim : Nat) :
    ReadSoFar isPlainType nprim []
      (List.replicate nprim Ebitmap.empty, List.replicate nprim Ebitmap.empty) where
  typeRows := List.length_replicate
  attrRows := List.length_replicate
  typeBits := by simp
  attrBits := by
    intro i j
    by_cases inside : j < nprim <;> simp [HasRowBit, inside]

theorem hasRowBit_concat (front : List Ebitmap) (row : Ebitmap) (i j : Nat) :
    HasRowBit (front ++ [row]) i j ↔
      HasRowBit front i j ∨ (i = front.length ∧ j ∈ row.bits) := by
  simp only [HasRowBit]
  rcases Nat.lt_trichotomy i front.length with before | here | beyond
  · simp [List.getElem?_append_left before, Nat.ne_of_lt before]
  · subst here
    simp
  · have outside : (front ++ [row]).length ≤ i := by simpa using beyond
    simp [List.getElem?_eq_none outside, List.getElem?_eq_none (Nat.le_of_lt beyond),
      Nat.ne_of_gt beyond]

theorem hasRowBit_lt {rows : List Ebitmap} {row bit : Nat} (set : HasRowBit rows row bit) :
    row < rows.length := by
  rcases set with ⟨e, found, -⟩
  exact (List.getElem?_eq_some_iff.mp found).1

theorem readSoFar_step {isPlainType : Nat → Bool} {nprim : Nat} {front : List Ebitmap}
    {maps : List Ebitmap × List Ebitmap} (soFar : ReadSoFar isPlainType nprim front maps)
    (inside : front.length < nprim) {row : Ebitmap} {next : List Ebitmap × List Ebitmap}
    (read : readAttrRow isPlainType nprim maps (row, front.length) = some next) :
    ReadSoFar isPlainType nprim (front ++ [row]) next := by
  simp only [readAttrRow] at read
  split at read
  · rename_i known
    have othersInside : ∀ j, j ∈ row.bits.filter (· ≠ front.length) → j < maps.2.length := by
      intro j member
      rw [soFar.attrRows]
      exact of_decide_eq_true (List.all_eq_true.mp known j member)
    rcases foldl_setRowBit _ front.length maps.2 othersInside with ⟨sameLength, entered⟩
    cases read
    constructor
    case typeRows =>
      rw [List.length_set]
      exact soFar.typeRows
    case attrRows =>
      dsimp only
      split
      · rw [length_setRowBit, sameLength, soFar.attrRows]
      · rw [sameLength, soFar.attrRows]
    case typeBits =>
      intro i j within
      rw [List.length_append, List.length_singleton] at within
      rw [hasRowBit_concat]
      by_cases here : i = front.length
      · subst here
        have noEarlier : ¬HasRowBit front front.length j := fun set =>
          Nat.lt_irrefl _ (hasRowBit_lt set)
        simp [HasRowBit, soFar.typeRows, inside] at noEarlier ⊢
      · have earlier : i < front.length := by omega
        rw [← or_assoc, ← soFar.typeBits i j earlier]
        simp [HasRowBit, Ne.symm here, here]
    case attrBits =>
      intro i j
      have both : ∀ rows, rows = (row.bits.filter (· ≠ front.length)).foldl
          (fun rows row => setRowBit rows row front.length) maps.2 →
          (HasRowBit (if isPlainType front.length then setRowBit rows front.length front.length
            else rows) j i ↔ HasRowBit rows j i ∨
              (i = front.length ∧ j = front.length ∧ isPlainType front.length = true)) := by
        intro rows isRows
        split
        · rename_i plain
          rw [hasRowBit_setRowBit, isRows, sameLength, soFar.attrRows]
          simp only [inside, true_and, plain, and_true]
          tauto
        · rename_i notPlain
          simp [notPlain]
      rw [both _ rfl, entered, soFar.attrBits, hasRowBit_concat, List.length_append,
        List.length_singleton]
      simp only [List.mem_filter, decide_eq_true_eq]
      by_cases here : i = front.length
      · subst here
        have noEarlier : ¬HasRowBit front front.length j := fun set =>
          Nat.lt_irrefl _ (hasRowBit_lt set)
        simp only [noEarlier, Nat.lt_irrefl, Nat.lt_succ_self, false_and, false_or, true_and]
        grind
      · have earlier : i < front.length + 1 ↔ i < front.length := by omega
        simp only [here, false_and, and_false, or_false, earlier]
  · cases read

theorem readSoFar_rows {isPlainType : Nat → Bool} {nprim : Nat} (front : List Ebitmap)
    (inside : front.length ≤ nprim) {maps : List Ebitmap × List Ebitmap}
    (read : front.zipIdx.foldlM (readAttrRow isPlainType nprim)
      (List.replicate nprim Ebitmap.empty, List.replicate nprim Ebitmap.empty) = some maps) :
    ReadSoFar isPlainType nprim front maps := by
  induction front using List.reverseRecOn generalizing maps with
  | nil =>
      cases read
      exact readSoFar_start isPlainType nprim
  | append_singleton front row induction =>
      rw [List.length_append, List.length_singleton] at inside
      rw [List.zipIdx_append, List.foldlM_append] at read
      rcases Option.bind_eq_some_iff.mp read with ⟨earlier, readEarlier, readLast⟩
      have soFar := induction (by omega) readEarlier
      simp only [Nat.zero_add, List.zipIdx_singleton, List.foldlM_cons, List.foldlM_nil,
        Option.bind_eq_bind, Option.pure_def, Option.bind_fun_some] at readLast
      exact readSoFar_step soFar (by omega) readLast

theorem mapsAgree_of_mapsLoaded {p : Policy} (loaded : MapsLoaded p) : MapsAgree p := by
  rcases loaded with ⟨rows, sameLength, read⟩
  have soFar := readSoFar_rows rows (Nat.le_refl _) read
  constructor
  case itself =>
    intro i inside
    exact (soFar.typeBits i i (by omega)).mpr (Or.inl rfl)
  case transposed =>
    intro i j iInside jInside
    rw [soFar.attrBits i j, soFar.typeBits i j (by omega)]
    have inside : i < rows.length := by omega
    grind

/-! ## Calls -/

/-- A call that makes no type and gives no attribute to itself. -/
def KeepsAgreement (invocation : Invocation) (p : Policy) : Prop :=
  (∀ d, ¬CreatesNew p d invocation.call) ∧
    ∀ d a domain attr, invocation.call = .attradd (some d) (some a) →
      hashtabSearch p.pTypes.table d = some domain → attrValue p a = some attr →
      domain.value - 1 = attr - 1 → p.isPlainType (attr - 1) = true

theorem KeepsTypes.isPlainType_eq {p next : Policy} (keeps : KeepsTypes p next) (bit : Nat) :
    next.isPlainType bit = p.isPlainType bit := by
  simp only [Policy.isPlainType, Policy.typeOfBit, keeps.structs, keeps.pTypes]

theorem MapsAgree.of_same_maps {p next : Policy} (agree : MapsAgree p) (keeps : KeepsTypes p next)
    (sameTypeMap : next.typeAttrMap = p.typeAttrMap)
    (sameAttrMap : next.attrTypeMap = p.attrTypeMap) : MapsAgree next := by
  constructor
  case itself =>
    rw [keeps.pTypes, sameTypeMap]
    exact agree.itself
  case transposed =>
    simp only [keeps.isPlainType_eq]
    rw [keeps.pTypes, sameTypeMap, sameAttrMap]
    exact agree.transposed

theorem MapsAgree.setAttr {p : Policy} (agree : MapsAgree p)
    (typeRows : p.typeAttrMap.length = p.pTypes.nprim)
    (attrRows : p.attrTypeMap.length = p.pTypes.nprim) (name : CString) (value : Nat)
    (notItself : ∀ attr, attrValue p name = some attr → value - 1 = attr - 1 →
      p.isPlainType (attr - 1) = true) :
    MapsAgree (setAttr p name value).1 := by
  have sameType := (keepsTypes_setAttr p name value).isPlainType_eq
  have sameTypes := (keepsTypes_setAttr p name value).pTypes
  constructor
  case itself =>
    intro i inside
    rw [sameTypes] at inside
    rw [setAttr_eq]
    cases attrValue p name with
    | none => exact agree.itself i inside
    | some attr => exact (hasRowBit_setRowBit _ _ _ _ _).mpr (Or.inr (agree.itself i inside))
  case transposed =>
    intro i j iInside jInside
    rw [sameTypes] at iInside jInside
    rw [sameType]
    have before := agree.transposed i j iInside jInside
    rw [setAttr_eq]
    cases isAttr : attrValue p name with
    | none => exact before
    | some attr =>
        have plain := notItself attr isAttr
        simp only [hasRowBit_setRowBit, typeRows, attrRows, before]
        by_cases same : i = j
        · subst same
          simp only [ne_eq, not_true_eq_false, false_and, false_or, true_and]
          constructor
          · rintro (⟨-, rfl, sameBit⟩ | isPlain)
            · exact plain sameBit.symm
            · exact isPlain
          · intro isPlain
            exact Or.inr isPlain
        · simp only [ne_eq, same, not_false_eq_true, true_and, false_and, or_false]
          apply or_congr_left
          constructor
          · rintro ⟨-, rfl, rfl⟩
            exact ⟨iInside, rfl, rfl⟩
          · rintro ⟨-, rfl, rfl⟩
            exact ⟨jInside, rfl, rfl⟩

/-! ## Sequences of calls -/

structure AgreeingRows (p : Policy) : Prop where
  agree : MapsAgree p
  typeRows : p.typeAttrMap.length = p.pTypes.nprim
  attrRows : p.attrTypeMap.length = p.pTypes.nprim

theorem agreeingRows_of_mapsLoaded {p : Policy} (loaded : MapsLoaded p) : AgreeingRows p := by
  rcases loaded with ⟨rows, sameLength, read⟩
  have soFar := readSoFar_rows rows (Nat.le_refl _) read
  exact ⟨mapsAgree_of_mapsLoaded ⟨rows, sameLength, read⟩, soFar.typeRows.trans sameLength,
    soFar.attrRows.trans sameLength⟩

theorem agreeingRows_execute {invocation : Invocation} {p next : Policy} {result : Nat}
    (rows : AgreeingRows p) (plain : ¬IsNamedTransition invocation.call)
    (keepsAgreement : KeepsAgreement invocation p)
    (ran : execute invocation p = some (next, result)) : AgreeingRows next := by
  have executes := executes_of_execute ran
  have keeps := executes.keepsTypes plain keepsAgreement.1
  refine
    { agree := ?_
      typeRows := by rw [keeps.typeRows, keeps.pTypes, rows.typeRows]
      attrRows := by rw [keeps.attrRows, keeps.pTypes, rows.attrRows] }
  cases executes with
  | rules teAvtab permissiveMap _ => exact rows.agree.of_same_maps keeps rfl rfl
  | sets domainS attr domain table isCall found =>
      have notItself := fun value => keepsAgreement.2 domainS attr domain value isCall found
      have agree := rows.agree.setAttr rows.typeRows rows.attrRows attr domain.value notItself
      exact agree.of_same_maps ⟨rfl, rfl, rfl, rfl, rfl⟩ rfl rfl
  | creates d isNew next result ran => exact absurd isNew (keepsAgreement.1 d)
  | named pTypes filenameTrans isNamed => exact absurd isNamed plain

/-- From a loaded policy on, the maps agree as long as no call makes a type or
gives an attribute to itself. -/
theorem mapsAgree_along (p : Policy) (loaded : MapsLoaded p) (invocations : List Invocation)
    (last : Policy)
    (along : Along perform (fun invocation p => ¬IsNamedTransition invocation.call ∧
      KeepsAgreement invocation p) invocations p)
    (ran : runCalls invocations p = some last) : MapsAgree last := by
  refine (runSteps_invariant (fun invocation p next rows allowed performed => ?_) invocations
    (agreeingRows_of_mapsLoaded loaded) along ran).agree
  rcases perform_eq_some performed with ⟨result, executed⟩
  exact agreeingRows_execute rows allowed.1 allowed.2 executed

theorem mapsLoaded_shellPolicy (policyvers : Nat) : MapsLoaded (shellPolicy policyvers) :=
  ⟨[{ bits := [1], ascending := by decide }, Ebitmap.empty], rfl, rfl⟩

/-- `attradd shell domain` after the load. -/
theorem mapsAgree_attradd_shell :
    ∃ last, runCalls [⟨.attradd (some (ascii "shell")) (some (ascii "domain")), (0, 0)⟩]
        (shellPolicy 30) = some last ∧ MapsAgree last := by
  cases ran : runCalls [⟨.attradd (some (ascii "shell")) (some (ascii "domain")), (0, 0)⟩]
      (shellPolicy 30) with
  | none => cases ran
  | some last =>
      refine ⟨last, rfl, mapsAgree_along (shellPolicy 30) (mapsLoaded_shellPolicy 30) _ last ?_ ran⟩
      refine ⟨⟨id, ?_, ?_⟩, fun _ _ => trivial⟩
      · rintro d ⟨isCreate, -⟩
        cases isCreate
      · intro d a domain attr isCall found isAttr sameBit
        cases isCall
        cases found
        cases isAttr
        cases sameBit

/-- `create su` leaves the new type out of its own row of `attr_type_map`. -/
theorem create_su_not_mapsAgree :
    MapsLoaded (shellPolicy 30) ∧ ∃ next,
      execute ⟨.typeState .create (some (ascii "su")), (0, 0)⟩ (shellPolicy 30) = some (next, 0) ∧
      ¬MapsAgree next := by
  refine ⟨mapsLoaded_shellPolicy 30, _, rfl, fun agree => ?_⟩
  have itself := (agree.transposed 2 2 (by decide) (by decide)).mpr (Or.inr ⟨rfl, rfl⟩)
  rcases itself with ⟨row, isRow, member⟩
  cases isRow
  cases member

end SuBinary.Magiskpolicy
