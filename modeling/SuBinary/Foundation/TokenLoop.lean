import SuBinary.Foundation.Strtok

/-! # Loops over tokens

The loop `while (tok != NULL) { ... tok = strtok_r(NULL, ...); }`, for a body
that keeps pointers to tokens, may cut a token short and look at it again, and
may give up.
-/

namespace SuBinary

/-! ## The loop -/

inductive Visit (Token Held : Type)
  | reject
  | again (tok : Token) (held : Held)
  | next (held : Held)

/-- The body of the loop. Looking at a token again must come with a shorter
token. -/
structure Visitor (Held : Type) where
  delimiter : Byte → Bool
  visit : Nat → Held → MemM (Visit Nat Held)
  grows : ∀ {tok held memory result after}, visit tok held memory = some (result, after) →
    Extends memory after
  shrinks : ∀ {tok held memory next heldNext after},
    visit tok held memory = some (.again next heldNext, after) →
      (stringAt after.cells next).length < (stringAt memory.cells tok).length

structure TokenState (Held : Type) where
  memory : Memory
  tok : Option Nat
  saveptr : Option Nat
  held : Held

/-- `strtok_r(NULL, ...)` -/
def strtokNext (delimiter : Byte → Bool) : Option Nat → MemM (Option Nat × Option Nat)
  | none => return (none, none)
  | some next => strtokR delimiter next

namespace Visitor

variable {Held : Type} (visitor : Visitor Held)

/-- A result of `none` is a fault, one of `some none` a rejection. -/
def turn (state : TokenState Held) :
    Turn (TokenState Held) (Option (Option Held × Memory)) :=
  match state.tok with
  | none => .finish (some (some state.held, state.memory))
  | some tok =>
      match visitor.visit tok state.held state.memory with
      | none => .finish none
      | some (.reject, memory) => .finish (some (none, memory))
      | some (.again tok held, memory) =>
          .again { memory, tok := some tok, saveptr := state.saveptr, held }
      | some (.next held, memory) =>
          match strtokNext visitor.delimiter state.saveptr memory with
          | none => .finish none
          | some ((tok, saveptr), memory) => .again { memory, tok, saveptr, held }

theorem turn_again {state next : TokenState Held} (turned : visitor.turn state = .again next) :
    ∃ tok, state.tok = some tok ∧
      ((∃ again, visitor.visit tok state.held state.memory =
          some (.again again next.held, next.memory) ∧
          next.tok = some again ∧ next.saveptr = state.saveptr) ∨
        ∃ middle, visitor.visit tok state.held state.memory = some (.next next.held, middle) ∧
          strtokNext visitor.delimiter state.saveptr middle =
            some ((next.tok, next.saveptr), next.memory)) := by
  rw [turn] at turned
  split at turned
  · cases turned
  · rename_i tok isTok
    refine ⟨tok, isTok, ?_⟩
    split at turned
    · cases turned
    · cases turned
    · rename_i visited
      cases turned
      exact Or.inl ⟨_, visited, rfl, rfl⟩
    · rename_i visited
      split at turned
      · cases turned
      · rename_i fetched
        cases turned
        exact Or.inr ⟨_, visited, fetched⟩

theorem strtokNext_extends {delimiter : Byte → Bool} {saveptr : Option Nat} {memory : Memory}
    {result : Option Nat × Option Nat} {after : Memory}
    (ran : strtokNext delimiter saveptr memory = some (result, after)) :
    Extends memory after := by
  cases saveptr with
  | none =>
      cases FaultM.pure_some.mp ran
      exact Extends.refl _
  | some next => exact (strtokR_extends ran).1

theorem strtokNext_room {delimiter : Byte → Bool} {saveptr : Option Nat} {memory : Memory}
    {result : Option Nat × Option Nat} {after : Memory}
    (ran : strtokNext delimiter saveptr memory = some (result, after)) :
    roomOf after.cells result.1 + roomAfter after.cells.length result.2 ≤
      roomAfter memory.cells.length saveptr := by
  cases saveptr with
  | none =>
      cases FaultM.pure_some.mp ran
      simp [roomOf, roomAfter]
  | some next => exact strtokR_room ran

def room (state : TokenState Held) : Nat :=
  roomOf state.memory.cells state.tok + roomAfter state.memory.cells.length state.saveptr

theorem room_turn (state next : TokenState Held) (turned : visitor.turn state = .again next) :
    room next < room state := by
  rcases visitor.turn_again turned with
    ⟨tok, isTok, ⟨again, visited, isAgain, sameSave⟩ | ⟨middle, visited, fetched⟩⟩
  · have size := (visitor.grows visited).size
    have shorter := visitor.shrinks visited
    simp only [room, isTok, isAgain, sameSave, roomOf, size]
    omega
  · have size := (visitor.grows visited).size
    have less := strtokNext_room fetched
    rw [size] at less
    simp only [room, isTok, roomOf] at less ⊢
    omega

def loop : Loop (TokenState Held) (Option (Option Held × Memory)) where
  body := visitor.turn
  rank := room
  decreases := visitor.room_turn

/-- The whole loop, from the first call of `strtok_r` on. -/
def scan (statement : Nat) (held : Held) : MemM (Option Held) := fun memory =>
  match strtokR visitor.delimiter statement memory with
  | none => none
  | some ((tok, saveptr), memory) => visitor.loop.run { memory, tok, saveptr, held }

def enter (statement : Nat) (held : Held) (memory : Memory) : Option (TokenState Held) :=
  match strtokR visitor.delimiter statement memory with
  | none => none
  | some ((tok, saveptr), memory) => some { memory, tok, saveptr, held }

theorem scan_of_enter {statement : Nat} {held : Held} {memory : Memory} {first : TokenState Held}
    (entered : visitor.enter statement held memory = some first) :
    visitor.scan statement held memory = visitor.loop.run first := by
  rw [enter] at entered
  rw [scan]
  split at entered
  · cases entered
  · cases entered
    rfl

theorem scan_touches {statement : Nat} {held : Held} {memory after : Memory}
    {result : Option Held} (ran : visitor.scan statement held memory = some (result, after)) :
    Extends memory after ∧ statement ∈ after.touched := by
  rw [scan] at ran
  split at ran
  · cases ran
  · rename_i tok saveptr middle first
    rcases strtokR_extends first with ⟨start, touched⟩
    let Post := fun result : Option (Option Held × Memory) =>
      ∀ result' after', result = some (result', after') → Extends middle after'
    let Invariant := fun state : TokenState Held => Extends middle state.memory
    have initially : Invariant { memory := middle, tok, saveptr, held } := Extends.refl middle
    have grows : Post (visitor.loop.run { memory := middle, tok, saveptr, held }) := by
      refine visitor.loop.run_invariant (fun state next extended turned => ?_)
        (fun state result extended turned => ?_) _ initially
      · rcases visitor.turn_again turned with
          ⟨tok, -, ⟨again, visited, -⟩ | ⟨last, visited, fetched⟩⟩
        · exact extended.trans (visitor.grows visited)
        · exact extended.trans ((visitor.grows visited).trans (strtokNext_extends fetched))
      · intro result' after' isResult
        subst isResult
        have body : visitor.turn state = .finish (some (result', after')) := turned
        rw [turn] at body
        split at body
        · cases body
          exact extended
        · split at body
          · cases body
          · rename_i visited
            cases body
            exact extended.trans (visitor.grows visited)
          · cases body
          · split at body
            · cases body
            · cases body
    have extended := grows result after ran
    exact ⟨start.trans extended, extended.touched statement touched⟩

end Visitor

/-! ## The loop on a list of tokens -/

/-- The loop on the tokens themselves; the outcome is `none` for a rejection. -/
inductive Reads {Held : Type} (visit : CString → Held → Visit CString Held) :
    List CString → Held → Option Held → Prop
  | done (held) : Reads visit [] held (some held)
  | reject {word words held} (rejects : visit word held = .reject) :
      Reads visit (word :: words) held none
  | next {word words held heldNext outcome} (goesOn : visit word held = .next heldNext)
      (rest : Reads visit words heldNext outcome) : Reads visit (word :: words) held outcome
  | again {word words held shorter heldNext outcome}
      (repeats : visit word held = .again shorter heldNext)
      (rest : Reads visit (shorter :: words) heldNext outcome) :
      Reads visit (word :: words) held outcome

structure Holder (Held : Type → Type) where
  map : (Nat → CString) → Held Nat → Held CString
  pointers : Held Nat → List Nat
  congr : ∀ {left right held}, (∀ pointer, pointer ∈ pointers held → left pointer = right pointer) →
    map left held = map right held

namespace Holder

variable {Held : Type → Type} (holder : Holder Held)

def deref (cells : List Byte) (held : Held Nat) : Held CString :=
  holder.map (stringAt cells) held

/-- All pointers point to strings that end before `bound`. -/
def Settled (cells : List Byte) (bound : Nat) (held : Held Nat) : Prop :=
  ∀ pointer, pointer ∈ holder.pointers held →
    ∃ text, HasString cells pointer text ∧ pointer + text.length < bound

variable {holder} {before after : List Byte} {first last bound : Nat} {held : Held Nat}

theorem Settled.mono (settled : holder.Settled before bound held) {wide : Nat}
    (wider : bound ≤ wide) : holder.Settled before wide held := by
  intro pointer member
  rcases settled pointer member with ⟨text, present, ends⟩
  exact ⟨text, present, by omega⟩

theorem Settled.add {tok : Nat} (settled : holder.Settled before tok held) {word : CString}
    (present : HasString before tok word) {added : Held Nat}
    (pointers : ∀ pointer, pointer ∈ holder.pointers added →
      pointer ∈ holder.pointers held ∨ pointer = tok) :
    holder.Settled before (tok + word.length + 1) added := by
  intro pointer member
  rcases pointers pointer member with earlier | rfl
  · exact settled.mono (by omega) pointer earlier
  · exact ⟨word, present, Nat.lt_succ_self _⟩

theorem Settled.frame (settled : holder.Settled before bound held)
    (same : SameOutside first last before after) (apart : bound ≤ first) :
    holder.Settled after bound held ∧ holder.deref after held = holder.deref before held := by
  constructor
  · intro pointer member
    rcases settled pointer member with ⟨text, present, ends⟩
    exact ⟨text, same.hasString (Or.inl (by omega)) present, ends⟩
  · apply holder.congr
    intro pointer member
    rcases settled pointer member with ⟨text, present, ends⟩
    rw [present.stringAt_eq, (same.hasString (Or.inl (by omega)) present).stringAt_eq]

end Holder

/-- What a visit at `tok` has to do, given what the visit of the token itself
decides. -/
def VisitMatches {Held : Type → Type} (holder : Holder Held) (memory : Memory) (tok : Nat)
    (word : CString) (ran : Option (Visit Nat (Held Nat) × Memory)) (after : Memory) :
    Visit CString (Held CString) → Prop
  | .reject => ran = some (.reject, after)
  | .next heldNext => ∃ held, ran = some (.next held, after) ∧ after.cells = memory.cells ∧
      holder.deref memory.cells held = heldNext ∧
      holder.Settled memory.cells (tok + word.length + 1) held
  | .again shorter heldNext => ∃ next held, ran = some (.again next held, after) ∧
      HasString after.cells next shorter ∧ shorter ≠ [] ∧ tok ≤ next ∧
      next + shorter.length ≤ tok + word.length ∧
      holder.deref after.cells held = heldNext ∧ holder.Settled after.cells next held

/-- The body of the loop does in memory what `visit` does to tokens. -/
def Visitor.Follows {Held : Type → Type} (visitor : Visitor (Held Nat)) (holder : Holder Held)
    (visit : CString → Held CString → Visit CString (Held CString)) : Prop :=
  ∀ (memory : Memory) (tok : Nat) (word : CString) (held : Held Nat),
    HasString memory.cells tok word → word ≠ [] → holder.Settled memory.cells tok held →
      ∃ after, Confined tok (tok + word.length) memory after ∧
        VisitMatches holder memory tok word (visitor.visit tok held memory) after
          (visit word (holder.deref memory.cells held))

/-- The tokens that a token pointer and a saved pointer still stand for. -/
inductive AtTokens (delimiter : Byte → Bool) (cells : List Byte) (limit : Nat) :
    Option Nat → Option Nat → List CString → Prop
  | done : AtTokens delimiter cells limit none none []
  | last {tok word} (present : HasString cells tok word) (someWord : word ≠ [])
      (inside : tok + word.length ≤ limit) :
      AtTokens delimiter cells limit (some tok) none [word]
  | more {tok word next text} (present : HasString cells tok word) (someWord : word ≠ [])
      (following : HasString cells next text) (apart : tok + word.length < next)
      (inside : next + text.length ≤ limit) :
      AtTokens delimiter cells limit (some tok) (some next) (word :: tokens delimiter text)

theorem AtTokens.mono {delimiter : Byte → Bool} {cells : List Byte} {limit wide : Nat}
    {tok saveptr : Option Nat} {words : List CString}
    (atTokens : AtTokens delimiter cells limit tok saveptr words) (wider : limit ≤ wide) :
    AtTokens delimiter cells wide tok saveptr words := by
  cases atTokens with
  | done => exact AtTokens.done
  | last present someWord inside => exact AtTokens.last present someWord (by omega)
  | more present someWord following apart inside =>
      exact AtTokens.more present someWord following apart (by omega)

theorem AtTokens.token {delimiter : Byte → Bool} {cells : List Byte} {limit : Nat}
    {tok saveptr : Option Nat} {word : CString} {words : List CString}
    (atTokens : AtTokens delimiter cells limit tok saveptr (word :: words)) :
    ∃ found, tok = some found ∧ HasString cells found word ∧ word ≠ [] ∧
      found + word.length ≤ limit := by
  cases atTokens with
  | last present someWord inside => exact ⟨_, rfl, present, someWord, inside⟩
  | more present someWord following apart inside =>
      exact ⟨_, rfl, present, someWord, by omega⟩

theorem strtokR_atTokens {delimiter : Byte → Bool} (noNul : delimiter 0 = false)
    {memory : Memory} {start : Nat} {text : CString}
    (present : HasString memory.cells start text) :
    ∃ tok saveptr after, strtokR delimiter start memory = some ((tok, saveptr), after) ∧
      Confined start (start + text.length) memory after ∧
      AtTokens delimiter after.cells (start + text.length) tok saveptr
        (tokens delimiter text) ∧
      ∀ found, tok = some found → start ≤ found := by
  rcases text_cases delimiter text with delimits |
    ⟨front, word, delimits, someWord, plain, rfl⟩ |
    ⟨front, word, byte, back, delimits, someWord, plain, ends, rfl⟩
  · refine ⟨none, none, _, strtokR_none noNul present delimits, Confined.touch _ (by omega)
      (by omega), ?_, nofun⟩
    have noTokens : tokens delimiter text = [] := by
      have := tokens_of_delimiters delimits []
      rwa [List.append_nil, tokens_nil] at this
    rw [noTokens]
    exact AtTokens.done
  · have here := present.drop_eq
    rw [List.append_assoc] at here
    have clean : 0 ∉ word := fun nul => present.clean (List.mem_append_right _ nul)
    have ran := strtokR_scan here delimits someWord clean plain (Or.inl rfl)
    rw [if_pos rfl] at ran
    refine ⟨_, _, _, ran, Confined.touch _ (by omega) (by simp; omega), ?_, ?_⟩
    · rw [tokens_of_delimiters delimits, tokens_of_plain someWord plain]
      exact AtTokens.last present.suffix someWord (by simp; omega)
    · rintro found isFound
      cases isFound
      omega
  · have here := present.drop_eq
    rw [List.append_assoc, List.append_assoc, List.cons_append] at here
    have clean : 0 ∉ word := fun nul =>
      present.clean (List.mem_append_right _ (List.mem_append_left _ nul))
    have stopSome : byte ≠ 0 := by
      rintro rfl
      exact present.clean (by simp)
    have ran := strtokR_scan here delimits someWord clean plain (Or.inr ends)
    rw [if_neg stopSome] at ran
    rcases HasString.cut present.suffix with ⟨token, rest⟩
    refine ⟨_, _, _, ran, ?_, ?_, ?_⟩
    · exact (Confined.touch _ (by omega) (by simp; omega)).trans
        (Confined.set _ 0 (by omega) (by simp; omega))
    · rw [tokens_of_delimiters delimits, tokens_append_cons _ _ ends,
        tokens_of_plain someWord plain]
      exact AtTokens.more token someWord rest (by omega) (by simp; omega)
    · rintro found isFound
      cases isFound
      omega

/-! ## The loop in memory does what the loop on tokens does -/

section Simulation

variable {Held : Type → Type} {visitor : Visitor (Held Nat)} {holder : Holder Held}
  {visit : CString → Held CString → Visit CString (Held CString)}

def SettledState (holder : Holder Held) (start : Nat) (state : TokenState (Held Nat)) : Prop :=
  ∀ tok, state.tok = some tok → start ≤ tok ∧ holder.Settled state.memory.cells tok state.held

theorem strtokNext_atTokens (noNul : visitor.delimiter 0 = false) {memory : Memory}
    {tok : Nat} {saveptr : Option Nat} {word : CString} {words : List CString}
    {start limit : Nat} {held : Held Nat} (left : start ≤ tok)
    (atTokens : AtTokens visitor.delimiter memory.cells limit (some tok) saveptr (word :: words))
    (settled : holder.Settled memory.cells (tok + word.length + 1) held) :
    ∃ next saved after, strtokNext visitor.delimiter saveptr memory =
        some ((next, saved), after) ∧ Confined start limit memory after ∧
      AtTokens visitor.delimiter after.cells limit next saved words ∧
      SettledState holder start { memory := after, tok := next, saveptr := saved, held } ∧
      holder.deref after.cells held = holder.deref memory.cells held := by
  cases atTokens with
  | last present someWord inside =>
      exact ⟨none, none, memory, rfl, Confined.refl _ _ _, AtTokens.done, nofun, rfl⟩
  | @more _ _ following text present someWord follows apart inside =>
      rcases strtokR_atTokens noNul follows with
        ⟨next, saved, after, ran, confined, atNext, forward⟩
      rcases settled.frame confined.cells (by omega) with ⟨stillSettled, sameHeld⟩
      refine ⟨next, saved, after, ran, confined.mono (by omega) inside, atNext.mono inside, ?_,
        sameHeld⟩
      intro found isFound
      have := forward found isFound
      exact ⟨by omega, stillSettled.mono (by omega)⟩

structure Stands (visitor : Visitor (Held Nat)) (holder : Holder Held) (start limit : Nat)
    (words : List CString) (heldText : Held CString) (state : TokenState (Held Nat)) : Prop where
  atTokens : AtTokens visitor.delimiter state.memory.cells limit state.tok state.saveptr words
  settled : SettledState holder start state
  holds : holder.deref state.memory.cells state.held = heldText

section Stands

variable {word shorter : CString} {words : List CString} {heldText heldNext : Held CString}
  {start limit : Nat} {state : TokenState (Held Nat)}

theorem Stands.done (stands : Stands visitor holder start limit [] heldText state) :
    visitor.turn state = .finish (some (some state.held, state.memory)) := by
  rcases state with ⟨memory, tok, saveptr, held⟩
  cases stands.atTokens
  rfl

theorem Stands.reject (follows : visitor.Follows holder visit)
    (stands : Stands visitor holder start limit (word :: words) heldText state)
    (rejects : visit word heldText = .reject) :
    ∃ after, visitor.turn state = .finish (some (none, after)) ∧
      Confined start limit state.memory after := by
  rcases state with ⟨memory, tok, saveptr, held⟩
  rcases stands with ⟨atTokens, settled, holds⟩
  rcases atTokens.token with ⟨tok, rfl, present, someWord, inside⟩
  rcases settled tok rfl with ⟨left, settled⟩
  rcases follows memory tok word held present someWord settled with ⟨after, confined, matched⟩
  rw [holds, rejects] at matched
  refine ⟨after, ?_, confined.mono left inside⟩
  simp only [Visitor.turn, show visitor.visit tok held memory = _ from matched]

theorem Stands.next (follows : visitor.Follows holder visit) (noNul : visitor.delimiter 0 = false)
    (stands : Stands visitor holder start limit (word :: words) heldText state)
    (goesOn : visit word heldText = .next heldNext) :
    ∃ next, visitor.turn state = .again next ∧ Confined start limit state.memory next.memory ∧
      Stands visitor holder start limit words heldNext next := by
  rcases state with ⟨memory, tok, saveptr, held⟩
  rcases stands with ⟨atTokens, settled, holds⟩
  rcases atTokens.token with ⟨tok, rfl, present, someWord, inside⟩
  rcases settled tok rfl with ⟨left, settled⟩
  rcases follows memory tok word held present someWord settled with ⟨middle, confined, matched⟩
  rw [holds, goesOn] at matched
  rcases matched with ⟨heldAfter, visited, sameCells, holdsNext, settledNext⟩
  rw [← sameCells] at atTokens settledNext holdsNext
  rcases strtokNext_atTokens noNul left atTokens settledNext with
    ⟨next, saved, after, fetched, fetchConfined, atNext, settledAfter, sameHeld⟩
  refine ⟨{ memory := after, tok := next, saveptr := saved, held := heldAfter }, ?_,
    (confined.mono left inside).trans fetchConfined, atNext, settledAfter,
    sameHeld.trans holdsNext⟩
  simp only [Visitor.turn, visited, fetched]

theorem Stands.again (follows : visitor.Follows holder visit)
    (stands : Stands visitor holder start limit (word :: words) heldText state)
    (repeats : visit word heldText = .again shorter heldNext) :
    ∃ next, visitor.turn state = .again next ∧ Confined start limit state.memory next.memory ∧
      Stands visitor holder start limit (shorter :: words) heldNext next ∧
      shorter.length < word.length := by
  rcases state with ⟨memory, tok, saveptr, held⟩
  rcases stands with ⟨atTokens, settled, holds⟩
  rcases atTokens.token with ⟨tok, rfl, present, someWord, inside⟩
  rcases settled tok rfl with ⟨left, settled⟩
  rcases follows memory tok word held present someWord settled with ⟨middle, confined, matched⟩
  rw [holds, repeats] at matched
  rcases matched with
    ⟨next, heldAfter, visited, presentNext, someShorter, forward, within, holdsNext, settledNext⟩
  have atNext : AtTokens visitor.delimiter middle.cells limit (some next) saveptr
      (shorter :: words) := by
    cases atTokens with
    | last present someWord inside =>
        exact AtTokens.last presentNext someShorter (by omega)
    | more present someWord following apart inside =>
        exact AtTokens.more presentNext someShorter
          (confined.cells.hasString (Or.inr (by omega)) following) (by omega) inside
  have settledState : SettledState holder start
      { memory := middle, tok := some next, saveptr, held := heldAfter } := by
    intro found isFound
    cases isFound
    exact ⟨by omega, settledNext⟩
  have less := visitor.shrinks visited
  rw [presentNext.stringAt_eq, present.stringAt_eq] at less
  refine ⟨{ memory := middle, tok := some next, saveptr, held := heldAfter }, ?_,
    confined.mono left inside, ⟨atNext, settledState, holdsNext⟩, less⟩
  simp only [Visitor.turn, visited]

theorem Stands.turn (follows : visitor.Follows holder visit) (noNul : visitor.delimiter 0 = false)
    (stands : Stands visitor holder start limit words heldText state) :
    (∃ result, visitor.turn state = .finish (some result)) ∨
      ∃ next left held, visitor.turn state = .again next ∧
        Stands visitor holder start limit left held next ∧
        totalLength left < totalLength words := by
  cases words with
  | nil => exact Or.inl ⟨_, stands.done⟩
  | cons word words =>
      rcases stands.atTokens.token with ⟨-, -, -, someWord, -⟩
      have := List.length_pos_of_ne_nil someWord
      cases visited : visit word heldText with
      | reject =>
          rcases stands.reject follows visited with ⟨after, turned, -⟩
          exact Or.inl ⟨_, turned⟩
      | next held =>
          rcases stands.next follows noNul visited with ⟨next, turned, -, standsNext⟩
          refine Or.inr ⟨next, words, held, turned, standsNext, ?_⟩
          rw [totalLength_cons]
          omega
      | again shorter held =>
          rcases stands.again follows visited with ⟨next, turned, -, standsNext, less⟩
          refine Or.inr ⟨next, shorter :: words, held, turned, standsNext, ?_⟩
          rw [totalLength_cons, totalLength_cons]
          omega

theorem Stands.ends (follows : visitor.Follows holder visit) (noNul : visitor.delimiter 0 = false)
    (stands : Stands visitor holder start limit words heldText state) :
    ∃ count last result, count ≤ totalLength words ∧
      Loop.Reaches visitor.turn count state last ∧ visitor.turn last = .finish (some result) := by
  induction bound : totalLength words using Nat.strong_induction_on
    generalizing words heldText state with
  | _ size induction =>
      subst bound
      rcases stands.turn follows noNul with ⟨result, turned⟩ |
        ⟨next, left, held, turned, standsNext, less⟩
      · exact ⟨0, state, result, Nat.zero_le _, Loop.Reaches.refl state, turned⟩
      · rcases induction _ less standsNext rfl with ⟨count, last, result, few, reaches, finishes⟩
        exact ⟨count + 1, last, result, by omega, reaches.cons turned, finishes⟩

theorem Stands.reaches (follows : visitor.Follows holder visit)
    (noNul : visitor.delimiter 0 = false)
    (stands : Stands visitor holder start limit words heldText state) {count : Nat}
    {other : TokenState (Held Nat)} (reaches : Loop.Reaches visitor.turn count state other) :
    ∃ left held, Stands visitor holder start limit left held other := by
  induction reaches with
  | refl => exact ⟨words, heldText, stands⟩
  | step earlier turned induction =>
      rcases induction stands with ⟨left, held, standsMiddle⟩
      rcases standsMiddle.turn follows noNul with ⟨result, finished⟩ |
        ⟨next, left, held, turnedToo, standsNext, -⟩
      · rw [turned] at finished
        cases finished
      · rw [turned] at turnedToo
        cases turnedToo
        exact ⟨left, held, standsNext⟩

end Stands

theorem loop_follows (follows : visitor.Follows holder visit)
    (noNul : visitor.delimiter 0 = false) {words : List CString} {heldText : Held CString}
    {outcome : Option (Held CString)} (reads : Reads visit words heldText outcome)
    (state : TokenState (Held Nat)) {start limit : Nat}
    (stands : Stands visitor holder start limit words heldText state) :
    ∃ result after, visitor.loop.run state = some (result, after) ∧
      Confined start limit state.memory after ∧
      result.map (holder.deref after.cells) = outcome := by
  induction reads generalizing state with
  | done heldText =>
      exact ⟨some state.held, state.memory, visitor.loop.run_of_finish stands.done,
        Confined.refl _ _ _, congrArg some stands.holds⟩
  | reject rejects =>
      rcases stands.reject follows rejects with ⟨after, turned, confined⟩
      exact ⟨none, after, visitor.loop.run_of_finish turned, confined, rfl⟩
  | next goesOn rest induction =>
      rcases stands.next follows noNul goesOn with ⟨next, turned, confined, standsNext⟩
      rcases induction next standsNext with ⟨result, final, ran, restConfined, isOutcome⟩
      exact ⟨result, final, (visitor.loop.run_of_again turned).trans ran,
        confined.trans restConfined, isOutcome⟩
  | again repeats rest induction =>
      rcases stands.again follows repeats with ⟨next, turned, confined, standsNext, -⟩
      rcases induction next standsNext with ⟨result, final, ran, restConfined, isOutcome⟩
      exact ⟨result, final, (visitor.loop.run_of_again turned).trans ran,
        confined.trans restConfined, isOutcome⟩

theorem enter_stands (noNul : visitor.delimiter 0 = false) {memory : Memory} {statement : Nat}
    {text : CString} (present : HasString memory.cells statement text) {held : Held Nat}
    (fresh : holder.pointers held = []) :
    ∃ first, visitor.enter statement held memory = some first ∧
      Confined statement (statement + text.length) memory first.memory ∧
      Stands visitor holder statement (statement + text.length) (tokens visitor.delimiter text)
        (holder.deref memory.cells held) first := by
  rcases strtokR_atTokens noNul present with
    ⟨tok, saveptr, middle, ran, confined, atTokens, forward⟩
  have settled : ∀ cells bound, holder.Settled cells bound held := by
    intro cells bound pointer member
    rw [fresh] at member
    cases member
  refine ⟨{ memory := middle, tok, saveptr, held }, ?_, confined, atTokens,
    fun found isFound => ⟨forward found isFound, settled _ _⟩,
    ((settled memory.cells statement).frame confined.cells (Nat.le_refl _)).2⟩
  simp only [Visitor.enter, ran]

theorem scan_follows (follows : visitor.Follows holder visit)
    (noNul : visitor.delimiter 0 = false) {memory : Memory} {statement : Nat} {text : CString}
    (present : HasString memory.cells statement text) {held : Held Nat}
    (fresh : holder.pointers held = []) {outcome : Option (Held CString)}
    (reads : Reads visit (tokens visitor.delimiter text) (holder.deref memory.cells held)
      outcome) :
    ∃ result after, visitor.scan statement held memory = some (result, after) ∧
      Confined statement (statement + text.length) memory after ∧
      result.map (holder.deref after.cells) = outcome := by
  rcases enter_stands noNul present fresh with ⟨first, entered, confined, stands⟩
  rcases loop_follows follows noNul reads first stands with
    ⟨result, after, looped, restConfined, isOutcome⟩
  refine ⟨result, after, ?_, confined.trans restConfined, isOutcome⟩
  rw [visitor.scan_of_enter entered, looped]

end Simulation

end SuBinary
