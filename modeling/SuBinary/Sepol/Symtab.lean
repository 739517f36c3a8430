import SuBinary.Sepol.Ebitmap

/-! # Operations on symbol tables

`hashtab.c` and `symtab.c` of libsepol.
-/

namespace SuBinary.Sepol

open SuBinary

/-! ## Order of the entries -/

/-- `symhash`, for a `char` that is unsigned. -/
def symhash (size : UInt32) (key : CString) : UInt32 :=
  let val := key.foldl (fun (val : UInt32) byte =>
    ((val <<< 4) ||| (val >>> 28)) ^^^ byte.toUInt32) 0
  val &&& (size - 1)

/-- Entries come in the order of their hash values and, within one chain, in
the order of `strcmp`. -/
def symbolBefore (size : UInt32) (key cur : CString) : Bool :=
  symhash size key < symhash size cur ||
    (symhash size key == symhash size cur && decide (key < cur))

def insertEntry (size : UInt32) (key : CString) (datum : Datum) :
    List (CString × Datum) → List (CString × Datum)
  | [] => [(key, datum)]
  | entry :: rest =>
      if symbolBefore size key entry.1 then (key, datum) :: entry :: rest
      else entry :: insertEntry size key datum rest

theorem insertEntry_perm (size : UInt32) (key : CString) (datum : Datum)
    (entries : List (CString × Datum)) :
    (insertEntry size key datum entries).Perm ((key, datum) :: entries) := by
  fun_induction insertEntry size key datum entries with
  | case1 => exact List.Perm.refl _
  | case2 entry rest before => exact List.Perm.refl _
  | case3 entry rest notBefore induction =>
      exact (List.Perm.cons entry induction).trans (List.Perm.swap _ _ _)

/-! ## Tables -/

namespace Hashtab

def mapEntries (h : Hashtab Datum) (change : CString → Datum → Other) : Hashtab Other where
  entries := h.entries.map fun entry => (entry.1, change entry.1 entry.2)
  distinct := by simpa [Function.comp_def] using h.distinct

def modify (h : Hashtab Datum) (key : CString) (change : Datum → Datum) : Hashtab Datum :=
  h.mapEntries fun name datum => if name = key then change datum else datum

def insertNew (size : UInt32) (h : Hashtab Datum) (key : CString) (datum : Datum)
    (fresh : key ∉ h.entries.map Prod.fst) : Hashtab Datum where
  entries := insertEntry size key datum h.entries
  distinct := by
    rw [((insertEntry_perm size key datum h.entries).map Prod.fst).nodup_iff]
    exact List.nodup_cons.mpr ⟨fresh, h.distinct⟩

end Hashtab

/-- `none` stands for `SEPOL_EEXIST`; allocation succeeds. -/
def hashtabInsert (size : UInt32) (h : Hashtab Datum) (key : CString) (datum : Datum) :
    Option (Hashtab Datum) :=
  if fresh : key ∉ h.entries.map Prod.fst then some (h.insertNew size key datum fresh)
  else none

/-! ## Lookups -/

theorem hashtabSearch_mapEntries (h : Hashtab Datum) (change : CString → Datum → Other)
    (key : CString) :
    hashtabSearch (h.mapEntries change) key = (hashtabSearch h key).map (change key) := by
  apply Option.ext
  intro datum
  rw [hashtabSearch_eq_some_iff, Option.map_eq_some_iff]
  simp only [Hashtab.mapEntries, List.mem_map, hashtabSearch_eq_some_iff, Prod.exists,
    Prod.mk.injEq]
  constructor
  · rintro ⟨name, found, member, rfl, rfl⟩
    exact ⟨found, member, rfl⟩
  · rintro ⟨found, member, rfl⟩
    exact ⟨key, found, member, rfl, rfl⟩

/-! ## Writes through an array of pointers -/

/-- A loop over the first `count` slots of an array of pointers to entries, each
written through; `none` is the crash on a null pointer. -/
def modifyPointed (pointers : List (Option CString)) (count : Nat) (change : Datum → Datum)
    (h : Hashtab Datum) : Option (Hashtab Datum) :=
  (List.range count).foldlM (fun h slot =>
    match pointers[slot]? with
    | some (some name) => some (h.modify name change)
    | _ => none) h

def AllPoint (pointers : List (Option CString)) (count : Nat) : Prop :=
  ∀ slot, slot < count → ∃ name, pointers[slot]? = some (some name)

def pointsTo (pointers : List (Option CString)) (count : Nat) (name : CString) : Bool :=
  decide (some name ∈ pointers.take count)

theorem modify_mapEntries (h : Hashtab Datum) (visited : CString → Bool) (name : CString)
    (change : Datum → Datum) (idempotent : ∀ datum, change (change datum) = change datum) :
    (h.mapEntries fun key datum => if visited key then change datum else datum).modify name
        change =
      h.mapEntries fun key datum => if visited key || decide (key = name) then change datum
        else datum := by
  simp only [Hashtab.modify, Hashtab.mapEntries, List.map_map, Hashtab.mk.injEq]
  apply List.map_congr_left
  intro entry member
  by_cases same : entry.1 = name
  · by_cases earlier : visited entry.1 = true
    · simp [same ▸ earlier, same, idempotent]
    · simp [same ▸ earlier, same]
  · simp [same]

theorem modifyPointed_eq {pointers : List (Option CString)} {count : Nat}
    (allPoint : AllPoint pointers count) (change : Datum → Datum)
    (idempotent : ∀ datum, change (change datum) = change datum) (h : Hashtab Datum) :
    modifyPointed pointers count change h =
      some (h.mapEntries fun key datum =>
        if pointsTo pointers count key then change datum else datum) := by
  induction count with
  | zero => simp [modifyPointed, pointsTo, Hashtab.mapEntries]
  | succ count induction =>
      rcases allPoint count (Nat.lt_succ_self count) with ⟨name, isName⟩
      have earlier := induction fun slot inside => allPoint slot (Nat.lt_succ_of_lt inside)
      rw [modifyPointed] at earlier ⊢
      rw [List.range_succ, List.foldlM_append, earlier]
      have taken : pointers.take (count + 1) = pointers.take count ++ [some name] := by
        rw [List.take_add_one, isName]
        rfl
      simp only [List.foldlM_cons, List.foldlM_nil, isName, Option.bind_eq_bind,
        Option.bind_some, Option.pure_def, modify_mapEntries _ _ _ _ idempotent]
      simp [pointsTo, taken]

theorem modifyPointed_eq_none {pointers : List (Option CString)} {count : Nat}
    (nullPointer : ¬AllPoint pointers count) (change : Datum → Datum) (h : Hashtab Datum) :
    modifyPointed pointers count change h = none := by
  induction count with
  | zero => exact absurd (fun slot inside => absurd inside (Nat.not_lt_zero slot)) nullPointer
  | succ count induction =>
      rw [modifyPointed, List.range_succ, List.foldlM_append]
      by_cases earlier : AllPoint pointers count
      · have here : ∀ name, pointers[count]? ≠ some (some name) := by
          intro name isName
          apply nullPointer
          intro slot inside
          rcases Nat.lt_succ_iff_lt_or_eq.mp inside with before | rfl
          · exact earlier slot before
          · exact ⟨name, isName⟩
        apply Option.bind_eq_none_iff.mpr
        intro changed _
        simp only [List.foldlM_cons, List.foldlM_nil]
        cases pointer : pointers[count]? with
        | none => rfl
        | some slot =>
            cases slot with
            | none => rfl
            | some name => exact absurd pointer (here name)
      · rw [← modifyPointed, induction earlier]
        rfl

end SuBinary.Sepol
