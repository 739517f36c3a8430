import SuBinary.Foundation.SortedChain

/-! # Hash tables as slots of chains

`hashtab.c` of libsepol. Allocation succeeds, and the table itself is never a null pointer.
-/

namespace SuBinary.Sepol

open SuBinary SortedChain

def sepolOk : Int := 0

def sepolEnoent : Int := -2

def sepolEexist : Int := -17

structure KeyFunctions (Key : Type) where
  hashValue : UInt32 → Key → UInt32
  keycmp : Key → Key → Int

/-- `hashtab_val_t`; a slot holds the nodes of its chain. -/
structure HashtabVal (Key Datum : Type) where
  htable : List (List (Key × Datum))
  size : UInt32
  nel : UInt32
deriving DecidableEq

/-- What a call returns, the table after it and the nodes whose contents it gave to
`destroy`. -/
structure HashtabResult (Key Datum : Type) where
  ret : Int
  table : HashtabVal Key Datum
  destroyed : List (Key × Datum)
deriving DecidableEq

namespace HashtabVal

variable {Key Datum : Type} (functions : KeyFunctions Key)

/-! ## Slots -/

def hvalue (h : HashtabVal Key Datum) (key : Key) : Int :=
  (functions.hashValue h.size key).toBitVec.toInt

/-- Read `htable[hvalue]`; `none` stands for an access outside the array. -/
def readSlot (h : HashtabVal Key Datum) (hvalue : Int) : Option (List (Key × Datum)) :=
  if 0 ≤ hvalue then h.htable[hvalue.toNat]? else none

def writeSlot (h : HashtabVal Key Datum) (hvalue : Int) (chain : List (Key × Datum)) :
    HashtabVal Key Datum :=
  { h with htable := h.htable.set hvalue.toNat chain }

def chains (h : HashtabVal Key Datum) : Option (List (List (Key × Datum))) :=
  (List.range h.size.toNat).mapM fun i => h.htable[i]?

/-- The node `cur` that a walk ends at and what follows it, if it has the key. -/
def atKey (key : Key) : List (Key × Datum) → Option ((Key × Datum) × List (Key × Datum))
  | [] => none
  | cur :: next => if functions.keycmp key cur.1 = 0 then some (cur, next) else none

/-! ## Calls -/

def hashtabCreate (size : UInt32) : HashtabVal Key Datum where
  htable := List.replicate size.toNat []
  size := size
  nel := 0

def hashtabInsert (h : HashtabVal Key Datum) (key : Key) (datum : Datum) :
    Option (HashtabResult Key Datum) := do
  let hvalue := h.hvalue functions key
  let chain ← h.readSlot hvalue
  let prev := passed functions.keycmp key chain
  let cur := reached functions.keycmp key chain
  match atKey functions key cur with
  | some _ => return { ret := sepolEexist, table := h, destroyed := [] }
  | none =>
      let inserted := h.writeSlot hvalue (prev ++ (key, datum) :: cur)
      return { ret := sepolOk, table := { inserted with nel := h.nel + 1 }, destroyed := [] }

def hashtabRemove (h : HashtabVal Key Datum) (key : Key) : Option (HashtabResult Key Datum) := do
  let hvalue := h.hvalue functions key
  let chain ← h.readSlot hvalue
  let last := passed functions.keycmp key chain
  match atKey functions key (reached functions.keycmp key chain) with
  | none => return { ret := sepolEnoent, table := h, destroyed := [] }
  | some (cur, next) =>
      let removed := h.writeSlot hvalue (last ++ next)
      return { ret := sepolOk, table := { removed with nel := h.nel - 1 }, destroyed := [cur] }

/-- A new node is not counted in `nel`. -/
def hashtabReplace (h : HashtabVal Key Datum) (key : Key) (datum : Datum) :
    Option (HashtabResult Key Datum) := do
  let hvalue := h.hvalue functions key
  let chain ← h.readSlot hvalue
  let prev := passed functions.keycmp key chain
  let cur := reached functions.keycmp key chain
  match atKey functions key cur with
  | some (old, next) =>
      let replaced := h.writeSlot hvalue (prev ++ (key, datum) :: next)
      return { ret := sepolOk, table := replaced, destroyed := [old] }
  | none =>
      let inserted := h.writeSlot hvalue (prev ++ (key, datum) :: cur)
      return { ret := sepolOk, table := inserted, destroyed := [] }

/-- The inner `none` is the null pointer that says that there is no such entry. -/
def hashtabSearch (h : HashtabVal Key Datum) (key : Key) : Option (Option Datum) := do
  let chain ← h.readSlot (h.hvalue functions key)
  return (atKey functions key (reached functions.keycmp key chain)).map fun found => found.1.2

def mapNodes {Args : Type} (apply : Key → Datum → Args → Int × Args) :
    List (Key × Datum) → Args → Int × Args
  | [], args => (sepolOk, args)
  | cur :: next, args =>
      let (ret, args) := apply cur.1 cur.2 args
      if ret ≠ 0 then (ret, args) else mapNodes apply next args

def mapSlots {Args : Type} (h : HashtabVal Key Datum)
    (apply : Key → Datum → Args → Int × Args) : List Nat → Args → Option (Int × Args)
  | [], args => some (sepolOk, args)
  | i :: rest, args => do
      let cur ← h.htable[i]?
      let (ret, args) := mapNodes apply cur args
      if ret ≠ 0 then return (ret, args) else mapSlots h apply rest args

/-- `args` is what `apply` reads and writes through its last argument. -/
def hashtabMap {Args : Type} (h : HashtabVal Key Datum)
    (apply : Key → Datum → Args → Int × Args) (args : Args) : Option (Int × Args) :=
  h.mapSlots apply (List.range h.size.toNat) args

def splitChain (apply : Key → Datum → Int) :
    List (Key × Datum) → List (Key × Datum) × List (Key × Datum)
  | [] => ([], [])
  | cur :: next =>
      let (kept, removed) := splitChain apply next
      if apply cur.1 cur.2 ≠ 0 then (kept, cur :: removed) else (cur :: kept, removed)

/-- What `apply` returns depends on the entry alone. -/
def hashtabMapRemoveOnError (h : HashtabVal Key Datum) (apply : Key → Datum → Int) :
    Option (HashtabResult Key Datum) := do
  let split := (← h.chains).map (splitChain apply)
  let destroyed := (split.map Prod.snd).flatten
  return {
    ret := sepolOk
    table :=
      { h with htable := split.map Prod.fst, nel := h.nel - UInt32.ofNat destroyed.length }
    destroyed := destroyed }

/-! ## Tables that there are -/

def listing (h : HashtabVal Key Datum) : List (Key × Datum) :=
  h.htable.flatten

end HashtabVal

/-- The two functions suit a table: hash values are slots and `keycmp` orders the keys. -/
structure KeyFunctions.Suit {Key : Type} (functions : KeyFunctions Key) (size : UInt32) : Prop where
  orders : Orders functions.keycmp
  inside : ∀ key, functions.hashValue size key < size
  small : size.toNat ≤ 2 ^ 31

namespace HashtabVal

section Tables

variable {Key Datum : Type} {functions : KeyFunctions Key}

structure WellFormed (functions : KeyFunctions Key) (h : HashtabVal Key Datum) : Prop where
  sized : h.htable.length = h.size.toNat
  ascending : ∀ (slot : Nat) chain, h.htable[slot]? = some chain → Ascending functions.keycmp chain
  placed : ∀ (slot : Nat) chain, h.htable[slot]? = some chain →
    ∀ entry, entry ∈ chain → (functions.hashValue h.size entry.1).toNat = slot

theorem chain_of_create {size : UInt32} {slot : Nat} {chain : List (Key × Datum)}
    (isChain : (hashtabCreate size : HashtabVal Key Datum).htable[slot]? = some chain) :
    chain = [] := by
  rw [hashtabCreate, List.getElem?_replicate] at isChain
  split at isChain
  · exact (Option.some.inj isChain).symm
  · cases isChain

theorem wellFormed_create (functions : KeyFunctions Key) (size : UInt32) :
    (hashtabCreate size : HashtabVal Key Datum).WellFormed functions where
  sized := List.length_replicate
  ascending slot chain isChain := by
    rw [chain_of_create isChain]
    exact List.Pairwise.nil
  placed slot chain isChain entry member := by
    rw [chain_of_create isChain] at member
    cases member

theorem listing_create (size : UInt32) :
    (hashtabCreate size : HashtabVal Key Datum).listing = [] := by
  simp [listing, hashtabCreate]

structure AtSlot (functions : KeyFunctions Key) (h : HashtabVal Key Datum) (key : Key)
    (front chain back : List (Key × Datum)) : Prop where
  reads : h.readSlot (h.hvalue functions key) = some chain
  listing : h.listing = front ++ chain ++ back
  ascending : Ascending functions.keycmp chain
  placed : ∀ entry, entry ∈ chain →
    functions.hashValue h.size entry.1 = functions.hashValue h.size key
  before : ∀ entry, entry ∈ front →
    functions.hashValue h.size entry.1 < functions.hashValue h.size key
  after : ∀ entry, entry ∈ back →
    functions.hashValue h.size key < functions.hashValue h.size entry.1
  writes : ∀ edited, Ascending functions.keycmp edited →
    (∀ entry, entry ∈ edited →
      functions.hashValue h.size entry.1 = functions.hashValue h.size key) →
    (h.writeSlot (h.hvalue functions key) edited).WellFormed functions ∧
      (h.writeSlot (h.hvalue functions key) edited).listing = front ++ edited ++ back

theorem WellFormed.atSlot {h : HashtabVal Key Datum} (wellFormed : h.WellFormed functions)
    (suit : functions.Suit h.size) (key : Key) :
    ∃ front chain back, AtSlot functions h key front chain back := by
  generalize isSlot : (functions.hashValue h.size key).toNat = slot
  have below : slot < h.size.toNat := by
    rw [← isSlot]
    exact UInt32.lt_iff_toNat_lt.mp (suit.inside key)
  have inside : slot < h.htable.length := wellFormed.sized ▸ below
  have isHvalue : h.hvalue functions key = slot := by
    have small := suit.small
    rw [hvalue, BitVec.toInt_eq_toNat_of_lt]
    · exact congrArg Nat.cast isSlot
    · change 2 * (functions.hashValue h.size key).toNat < 2 ^ 32
      omega
  have split : h.htable = h.htable.take slot ++ h.htable[slot] :: h.htable.drop (slot + 1) := by
    rw [← List.drop_eq_getElem_cons inside, List.take_append_drop]
  have isChain : h.htable[slot]? = some h.htable[slot] := List.getElem?_eq_getElem inside
  have placed := wellFormed.placed slot _ isChain
  refine ⟨(h.htable.take slot).flatten, h.htable[slot], (h.htable.drop (slot + 1)).flatten,
    ?_, ?_, wellFormed.ascending slot _ isChain, ?_, ?_, ?_, ?_⟩
  · rw [readSlot, isHvalue, if_pos (Int.natCast_nonneg slot), Int.toNat_natCast, isChain]
  · rw [listing, congrArg List.flatten split, List.flatten_append, List.flatten_cons,
      List.append_assoc]
  · intro entry member
    exact UInt32.toNat_inj.mp ((placed entry member).trans isSlot.symm)
  · intro entry member
    rcases List.mem_flatten.mp member with ⟨chain, isTaken, inChain⟩
    rcases List.mem_iff_getElem?.mp isTaken with ⟨other, isOther⟩
    rw [List.getElem?_take] at isOther
    split at isOther
    · have hashes := wellFormed.placed other chain isOther entry inChain
      rw [UInt32.lt_iff_toNat_lt]
      omega
    · cases isOther
  · intro entry member
    rcases List.mem_flatten.mp member with ⟨chain, isDropped, inChain⟩
    rcases List.mem_iff_getElem?.mp isDropped with ⟨other, isOther⟩
    rw [List.getElem?_drop] at isOther
    have hashes := wellFormed.placed (slot + 1 + other) chain isOther entry inChain
    rw [UInt32.lt_iff_toNat_lt]
    omega
  · intro edited ascending samePlace
    have written : (h.writeSlot (h.hvalue functions key) edited).htable =
        h.htable.set slot edited := by
      rw [writeSlot, isHvalue, Int.toNat_natCast]
    have look : ∀ other chain,
        (h.writeSlot (h.hvalue functions key) edited).htable[other]? = some chain →
          (other = slot ∧ chain = edited) ∨ h.htable[other]? = some chain := by
      intro other chain isOther
      rw [written, List.getElem?_set] at isOther
      split at isOther
      · rename_i same
        cases isOther
        exact Or.inl ⟨same.symm, rfl⟩
      · exact Or.inr isOther
    refine ⟨⟨?_, ?_, ?_⟩, ?_⟩
    · rw [written, List.length_set]
      exact wellFormed.sized
    · intro other chain isOther
      rcases look other chain isOther with ⟨-, rfl⟩ | isOld
      · exact ascending
      · exact wellFormed.ascending other chain isOld
    · intro other chain isOther entry member
      rcases look other chain isOther with ⟨rfl, rfl⟩ | isOld
      · exact (congrArg UInt32.toNat (samePlace entry member)).trans isSlot
      · exact wellFormed.placed other chain isOld entry member
    · rw [listing, written, List.set_eq_take_append_cons_drop, if_pos inside]
      simp

theorem AtSlot.elsewhere {h : HashtabVal Key Datum} {key : Key}
    {front chain back : List (Key × Datum)} (atSlot : AtSlot functions h key front chain back)
    {entry : Key × Datum} (member : entry ∈ front ++ back) : entry.1 ≠ key := by
  intro same
  rcases List.mem_append.mp member with inFront | inBack
  · have less := atSlot.before entry inFront
    rw [same] at less
    exact UInt32.lt_irrefl _ less
  · have greater := atSlot.after entry inBack
    rw [same] at greater
    exact UInt32.lt_irrefl _ greater

theorem atKey_eq_some {key : Key} {chain next : List (Key × Datum)} {cur : Key × Datum}
    (isKey : atKey functions key chain = some (cur, next)) :
    chain = cur :: next ∧ functions.keycmp key cur.1 = 0 := by
  cases chain with
  | nil => cases isKey
  | cons head rest =>
      rw [atKey] at isKey
      split at isKey
      · rename_i same
        cases isKey
        exact ⟨rfl, same⟩
      · cases isKey

theorem atKey_eq_none {key : Key} {chain rest : List (Key × Datum)} {entry : Key × Datum}
    (isNone : atKey functions key chain = none) (isCons : chain = entry :: rest) :
    functions.keycmp key entry.1 ≠ 0 := by
  rw [isCons, atKey] at isNone
  intro same
  rw [if_pos same] at isNone
  cases isNone

def Writes (functions : KeyFunctions Key) (h : HashtabVal Key Datum) (key : Key)
    (edited nodes : List (Key × Datum)) : Prop :=
  (h.writeSlot (h.hvalue functions key) edited).WellFormed functions ∧
    (h.writeSlot (h.hvalue functions key) edited).listing.Perm nodes

structure Found (functions : KeyFunctions Key) (h : HashtabVal Key Datum) (key : Key)
    (chain : List (Key × Datum)) (cur : Key × Datum) (next others : List (Key × Datum)) :
    Prop where
  reads : h.readSlot (h.hvalue functions key) = some chain
  ends : atKey functions key (reached functions.keycmp key chain) = some (cur, next)
  isKey : cur.1 = key
  listing : h.listing.Perm (cur :: others)
  different : ∀ entry, entry ∈ others → entry.1 ≠ key
  removed : Writes functions h key (passed functions.keycmp key chain ++ next) others
  replaced : ∀ datum, Writes functions h key
    (passed functions.keycmp key chain ++ (key, datum) :: next) ((key, datum) :: others)

structure Missing (functions : KeyFunctions Key) (h : HashtabVal Key Datum) (key : Key)
    (chain : List (Key × Datum)) : Prop where
  reads : h.readSlot (h.hvalue functions key) = some chain
  ends : atKey functions key (reached functions.keycmp key chain) = none
  different : ∀ entry, entry ∈ h.listing → entry.1 ≠ key
  added : ∀ datum, Writes functions h key
    (passed functions.keycmp key chain ++ (key, datum) :: reached functions.keycmp key chain)
    ((key, datum) :: h.listing)

theorem perm_middle_nodes (front before after back : List (Key × Datum)) (entry : Key × Datum) :
    (front ++ (before ++ entry :: after) ++ back).Perm
      (entry :: (front ++ (before ++ after) ++ back)) := by
  have inside : (before ++ entry :: after).Perm (entry :: (before ++ after)) := List.perm_middle
  have behind : (front ++ (before ++ entry :: after)).Perm
      (entry :: (front ++ (before ++ after))) :=
    (inside.append_left front).trans List.perm_middle
  exact behind.append_right back

theorem AtSlot.placed_with {h : HashtabVal Key Datum} {key : Key}
    {front chain back : List (Key × Datum)} (atSlot : AtSlot functions h key front chain back)
    (datum : Datum) {rest : List (Key × Datum)} (inChain : ∀ entry, entry ∈ rest → entry ∈ chain) :
    ∀ entry, entry ∈ passed functions.keycmp key chain ++ (key, datum) :: rest →
      functions.hashValue h.size entry.1 = functions.hashValue h.size key := by
  intro entry member
  rcases List.mem_append.mp member with before | after
  · exact atSlot.placed entry ((List.takeWhile_sublist _).subset before)
  · rcases List.mem_cons.mp after with rfl | inRest
    · rfl
    · exact atSlot.placed entry (inChain entry inRest)

theorem AtSlot.writes_new {h : HashtabVal Key Datum} {key : Key}
    {front chain back : List (Key × Datum)} (orders : Orders functions.keycmp)
    (atSlot : AtSlot functions h key front chain back)
    (ends : atKey functions key (reached functions.keycmp key chain) = none) (datum : Datum) :
    (h.writeSlot (h.hvalue functions key) (passed functions.keycmp key chain ++
        (key, datum) :: reached functions.keycmp key chain)).WellFormed functions ∧
      (h.writeSlot (h.hvalue functions key) (passed functions.keycmp key chain ++
          (key, datum) :: reached functions.keycmp key chain)).listing =
        front ++ (passed functions.keycmp key chain ++
          (key, datum) :: reached functions.keycmp key chain) ++ back := by
  apply atSlot.writes
  · exact ascending_insert orders atSlot.ascending datum
      fun _ _ isCons => atKey_eq_none ends isCons
  · exact atSlot.placed_with datum fun _ member => (List.dropWhile_sublist _).subset member

theorem AtSlot.missing {h : HashtabVal Key Datum} {key : Key}
    {front chain back : List (Key × Datum)} (orders : Orders functions.keycmp)
    (atSlot : AtSlot functions h key front chain back)
    (ends : atKey functions key (reached functions.keycmp key chain) = none) :
    Missing functions h key chain where
  reads := atSlot.reads
  ends := ends
  different entry member := by
    rw [atSlot.listing, List.append_assoc, List.mem_append, List.mem_append] at member
    rcases member with before | inChain | after
    · exact atSlot.elsewhere (List.mem_append_left back before)
    · exact ne_of_mem orders atSlot.ascending (fun _ _ isCons => atKey_eq_none ends isCons) inChain
    · exact atSlot.elsewhere (List.mem_append_right front after)
  added datum := by
    rcases atSlot.writes_new orders ends datum with ⟨wellFormed, listing⟩
    refine ⟨wellFormed, ?_⟩
    have added := perm_middle_nodes front (passed functions.keycmp key chain)
      (reached functions.keycmp key chain) back (key, datum)
    rwa [passed_append_reached, ← listing, ← atSlot.listing] at added

theorem AtSlot.found {h : HashtabVal Key Datum} {key : Key}
    {front chain back next : List (Key × Datum)} {cur : Key × Datum}
    (orders : Orders functions.keycmp) (atSlot : AtSlot functions h key front chain back)
    (ends : atKey functions key (reached functions.keycmp key chain) = some (cur, next)) :
    Found functions h key chain cur next
      (front ++ (passed functions.keycmp key chain ++ next) ++ back) := by
  rcases atKey_eq_some ends with ⟨isReached, zero⟩
  obtain rfl : key = cur.1 := (orders.same _ _).mp zero
  have split := passed_append_reached functions.keycmp cur.1 chain
  rw [isReached] at split
  have inChain : ∀ entry, entry ∈ next → entry ∈ chain := by
    intro entry member
    rw [← split]
    exact List.mem_append_right _ (List.mem_cons_of_mem _ member)
  have whole : front ++ chain ++ back =
      front ++ (passed functions.keycmp cur.1 chain ++ cur :: next) ++ back := by rw [split]
  refine ⟨atSlot.reads, ends, rfl, ?_, ?_, ?_, ?_⟩
  · rw [atSlot.listing, whole]
    exact perm_middle_nodes front _ next back cur
  · intro entry member
    rw [List.append_assoc, List.mem_append, List.mem_append] at member
    rcases member with before | inside | after
    · exact atSlot.elsewhere (List.mem_append_left back before)
    · exact ne_of_mem_others orders atSlot.ascending isReached inside
    · exact atSlot.elsewhere (List.mem_append_right front after)
  · rcases atSlot.writes _ (ascending_remove atSlot.ascending isReached) (by
      intro entry member
      rcases List.mem_append.mp member with before | after
      · exact atSlot.placed entry ((List.takeWhile_sublist _).subset before)
      · exact atSlot.placed entry (inChain entry after)) with ⟨wellFormed, listing⟩
    exact ⟨wellFormed, .of_eq listing⟩
  · intro datum
    rcases atSlot.writes _ (ascending_replace atSlot.ascending isReached datum)
      (atSlot.placed_with datum inChain) with ⟨wellFormed, listing⟩
    refine ⟨wellFormed, ?_⟩
    rw [listing]
    exact perm_middle_nodes front _ next back (cur.1, datum)

theorem WellFormed.walk {h : HashtabVal Key Datum} (wellFormed : h.WellFormed functions)
    (suit : functions.Suit h.size) (key : Key) :
    (∃ chain cur next others, Found functions h key chain cur next others) ∨
      ∃ chain, Missing functions h key chain := by
  rcases wellFormed.atSlot suit key with ⟨front, chain, back, atSlot⟩
  cases ends : atKey functions key (reached functions.keycmp key chain) with
  | none => exact Or.inr ⟨chain, atSlot.missing suit.orders ends⟩
  | some pair =>
      exact Or.inl ⟨chain, pair.1, pair.2, _, atSlot.found suit.orders ends⟩

theorem WellFormed.counting {h : HashtabVal Key Datum} (wellFormed : h.WellFormed functions)
    (nel : UInt32) : ({ h with nel := nel } : HashtabVal Key Datum).WellFormed functions :=
  ⟨wellFormed.sized, wellFormed.ascending, wellFormed.placed⟩

/-! ## Calls for one key -/

section Calls

variable {h : HashtabVal Key Datum} {key : Key} {chain : List (Key × Datum)}

theorem Found.insert {cur : Key × Datum} {next others : List (Key × Datum)}
    (found : Found functions h key chain cur next others) (datum : Datum) :
    h.hashtabInsert functions key datum =
      some { ret := sepolEexist, table := h, destroyed := [] } := by
  simp only [HashtabVal.hashtabInsert, found.reads, found.ends, Option.bind_eq_bind,
    Option.bind_some, Option.pure_def]

theorem Missing.insert_eq (missing : Missing functions h key chain) (datum : Datum) :
    h.hashtabInsert functions key datum = some {
      ret := sepolOk
      table :=
        { h.writeSlot (h.hvalue functions key) (passed functions.keycmp key chain ++
            (key, datum) :: reached functions.keycmp key chain) with nel := h.nel + 1 }
      destroyed := [] } := by
  simp only [HashtabVal.hashtabInsert, missing.reads, missing.ends, Option.bind_eq_bind,
    Option.bind_some, Option.pure_def]

theorem Missing.insert (missing : Missing functions h key chain) (datum : Datum) :
    ∃ table, h.hashtabInsert functions key datum =
        some { ret := sepolOk, table := table, destroyed := [] } ∧
      table.WellFormed functions ∧ table.size = h.size ∧
      table.listing.Perm ((key, datum) :: h.listing) ∧ table.nel = h.nel + 1 := by
  rcases missing.added datum with ⟨wellFormed, perm⟩
  exact ⟨_, missing.insert_eq datum, wellFormed.counting (h.nel + 1), rfl, perm, rfl⟩

theorem Found.remove {cur : Key × Datum} {next others : List (Key × Datum)}
    (found : Found functions h key chain cur next others) :
    ∃ table, h.hashtabRemove functions key =
        some { ret := sepolOk, table := table, destroyed := [cur] } ∧
      table.WellFormed functions ∧ table.size = h.size ∧
      table.listing.Perm others ∧ table.nel = h.nel - 1 := by
  rcases found.removed with ⟨wellFormed, perm⟩
  refine ⟨_, ?_, wellFormed.counting (h.nel - 1), rfl, perm, rfl⟩
  simp only [HashtabVal.hashtabRemove, found.reads, found.ends, Option.bind_eq_bind,
    Option.bind_some, Option.pure_def]

theorem Missing.remove (missing : Missing functions h key chain) :
    h.hashtabRemove functions key =
      some { ret := sepolEnoent, table := h, destroyed := [] } := by
  simp only [HashtabVal.hashtabRemove, missing.reads, missing.ends, Option.bind_eq_bind,
    Option.bind_some, Option.pure_def]

theorem Found.replace {cur : Key × Datum} {next others : List (Key × Datum)}
    (found : Found functions h key chain cur next others) (datum : Datum) :
    ∃ table, h.hashtabReplace functions key datum =
        some { ret := sepolOk, table := table, destroyed := [cur] } ∧
      table.WellFormed functions ∧ table.size = h.size ∧
      table.listing.Perm ((key, datum) :: others) ∧ table.nel = h.nel := by
  rcases found.replaced datum with ⟨wellFormed, perm⟩
  refine ⟨_, ?_, wellFormed, rfl, perm, rfl⟩
  simp only [HashtabVal.hashtabReplace, found.reads, found.ends, Option.bind_eq_bind,
    Option.bind_some, Option.pure_def]

theorem Missing.replace (missing : Missing functions h key chain) (datum : Datum) :
    ∃ table, h.hashtabReplace functions key datum =
        some { ret := sepolOk, table := table, destroyed := [] } ∧
      table.WellFormed functions ∧ table.size = h.size ∧
      table.listing.Perm ((key, datum) :: h.listing) ∧ table.nel = h.nel := by
  rcases missing.added datum with ⟨wellFormed, perm⟩
  refine ⟨_, ?_, wellFormed, rfl, perm, rfl⟩
  simp only [HashtabVal.hashtabReplace, missing.reads, missing.ends, Option.bind_eq_bind,
    Option.bind_some, Option.pure_def]

theorem Found.search {cur : Key × Datum} {next others : List (Key × Datum)}
    (found : Found functions h key chain cur next others) :
    h.hashtabSearch functions key = some (some cur.2) := by
  simp only [HashtabVal.hashtabSearch, found.reads, found.ends, Option.bind_eq_bind,
    Option.bind_some, Option.pure_def, Option.map_some]

theorem Missing.search (missing : Missing functions h key chain) :
    h.hashtabSearch functions key = some none := by
  simp only [HashtabVal.hashtabSearch, missing.reads, missing.ends, Option.bind_eq_bind,
    Option.bind_some, Option.pure_def, Option.map_none]

end Calls

/-! ## Loops over all slots -/

theorem mapM_slots (htable : List (List (Key × Datum))) (i count : Nat)
    (inside : i + count = htable.length) :
    (List.range' i count).mapM (fun i => htable[i]?) = some (htable.drop i) := by
  induction count generalizing i with
  | zero =>
      rw [List.drop_eq_nil_of_le (by omega)]
      rfl
  | succ count induction =>
      have below : i < htable.length := by omega
      rw [List.range'_succ, List.mapM_cons, induction (i + 1) (by omega),
        List.getElem?_eq_getElem below, List.drop_eq_getElem_cons below]
      rfl

theorem WellFormed.chains {h : HashtabVal Key Datum} (wellFormed : h.WellFormed functions) :
    h.chains = some h.htable := by
  rw [HashtabVal.chains, List.range_eq_range', mapM_slots h.htable 0 h.size.toNat
    (by rw [wellFormed.sized, Nat.zero_add]), List.drop_zero]

theorem mapNodes_append {Args : Type} (apply : Key → Datum → Args → Int × Args)
    (front back : List (Key × Datum)) (args : Args) :
    mapNodes apply (front ++ back) args =
      if (mapNodes apply front args).1 ≠ 0 then mapNodes apply front args
      else mapNodes apply back (mapNodes apply front args).2 := by
  induction front generalizing args with
  | nil => rfl
  | cons cur next induction =>
      rw [List.cons_append, mapNodes, mapNodes]
      by_cases failed : (apply cur.1 cur.2 args).1 ≠ 0
      · simp only [if_pos failed]
      · simp only [if_neg failed]
        exact induction _

theorem mapSlots_eq {Args : Type} {h : HashtabVal Key Datum}
    (apply : Key → Datum → Args → Int × Args) {slots : List Nat}
    {chains : List (List (Key × Datum))}
    (reads : slots.mapM (fun i => h.htable[i]?) = some chains) (args : Args) :
    h.mapSlots apply slots args = some (mapNodes apply chains.flatten args) := by
  induction slots generalizing chains args with
  | nil =>
      cases reads
      rfl
  | cons i rest induction =>
      rw [List.mapM_cons] at reads
      rcases Option.bind_eq_some_iff.mp reads with ⟨cur, isCur, later⟩
      rcases Option.bind_eq_some_iff.mp later with ⟨others, readsOthers, isChains⟩
      cases isChains
      rw [mapSlots, isCur, List.flatten_cons, mapNodes_append]
      simp only [Option.bind_eq_bind, Option.bind_some]
      split
      · rfl
      · exact induction readsOthers _

theorem WellFormed.hashtabMap {Args : Type} {h : HashtabVal Key Datum}
    (wellFormed : h.WellFormed functions) (apply : Key → Datum → Args → Int × Args)
    (args : Args) : h.hashtabMap apply args = some (mapNodes apply h.listing args) :=
  mapSlots_eq apply wellFormed.chains args

theorem splitChain_eq (apply : Key → Datum → Int) (chain : List (Key × Datum)) :
    splitChain apply chain =
      (chain.filter (fun entry => apply entry.1 entry.2 = 0),
        chain.filter (fun entry => !decide (apply entry.1 entry.2 = 0))) := by
  induction chain with
  | nil => rfl
  | cons cur next induction =>
      rw [splitChain, induction]
      by_cases fails : apply cur.1 cur.2 = 0
      · simp [fails]
      · simp [fails]

/-- The nodes that `apply` returns zero for stay, and the others are destroyed. -/
theorem WellFormed.hashtabMapRemoveOnError {h : HashtabVal Key Datum}
    (wellFormed : h.WellFormed functions) (apply : Key → Datum → Int) :
    ∃ table, h.hashtabMapRemoveOnError apply = some {
        ret := sepolOk
        table := table
        destroyed := h.listing.filter fun entry => !decide (apply entry.1 entry.2 = 0) } ∧
      table.WellFormed functions ∧ table.size = h.size ∧
      table.listing = h.listing.filter (fun entry => apply entry.1 entry.2 = 0) ∧
      table.nel = h.nel -
        UInt32.ofNat (h.listing.filter fun entry => !decide (apply entry.1 entry.2 = 0)).length := by
  have kept : (h.htable.map (splitChain apply)).map Prod.fst =
      h.htable.map (List.filter fun entry => apply entry.1 entry.2 = 0) := by
    rw [List.map_map]
    exact List.map_congr_left fun chain _ => congrArg Prod.fst (splitChain_eq apply chain)
  have removed : ((h.htable.map (splitChain apply)).map Prod.snd).flatten =
      h.listing.filter fun entry => !decide (apply entry.1 entry.2 = 0) := by
    rw [List.map_map, listing, List.filter_flatten]
    exact congrArg List.flatten
      (List.map_congr_left fun chain _ => congrArg Prod.snd (splitChain_eq apply chain))
  have chainOf : ∀ (slot : Nat) chain,
      (h.htable.map (List.filter fun entry => apply entry.1 entry.2 = 0))[slot]? = some chain →
        ∃ old, h.htable[slot]? = some old ∧ chain.Sublist old := by
    intro slot chain isChain
    rw [List.getElem?_map] at isChain
    rcases Option.map_eq_some_iff.mp isChain with ⟨old, isOld, rfl⟩
    exact ⟨old, isOld, List.filter_sublist⟩
  refine ⟨{ h with
    htable := h.htable.map (List.filter fun entry => apply entry.1 entry.2 = 0)
    nel := h.nel - UInt32.ofNat
      (h.listing.filter fun entry => !decide (apply entry.1 entry.2 = 0)).length },
    ?_, ⟨?_, ?_, ?_⟩, rfl, List.filter_flatten.symm, rfl⟩
  · simp only [HashtabVal.hashtabMapRemoveOnError, wellFormed.chains, kept, removed,
      Option.bind_eq_bind, Option.bind_some, Option.pure_def]
  · exact List.length_map _ |>.trans wellFormed.sized
  · intro slot chain isChain
    rcases chainOf slot chain isChain with ⟨old, isOld, part⟩
    exact List.Pairwise.sublist part (wellFormed.ascending slot old isOld)
  · intro slot chain isChain entry member
    rcases chainOf slot chain isChain with ⟨old, isOld, part⟩
    exact wellFormed.placed slot old isOld entry (part.subset member)

end Tables

end HashtabVal

end SuBinary.Sepol
