import Mathlib

/-! # Decoders over a supplied stream

A decoder is a fallible state transformer. The supply of items it reads from
may be wrapped in a larger state, so every statement is relative to a function
`feed` that turns the items still to come into a decoder state.
-/

namespace SuBinary

abbrev Decoder (ε σ : Type) := StateT σ (Except ε)

namespace Decoder

section

variable {ε σ item α β : Type} (feed : List item → σ)

/-- The decoder reads exactly `items` off the front of any longer supply and
yields `value`. -/
def Decodes (decoder : Decoder ε σ α) (items : List item) (value : α) : Prop :=
  ∀ rest, decoder (feed (items ++ rest)) = .ok (value, feed rest)

variable {feed}

theorem Decodes.pure (value : α) :
    Decodes feed (Pure.pure value : Decoder ε σ α) [] value :=
  fun _ => rfl

theorem Decodes.run_bind {first : Decoder ε σ α} {items : List item} {value : α}
    (decodes : Decodes feed first items value) (next : α → Decoder ε σ β) (rest : List item) :
    (first >>= next) (feed (items ++ rest)) = next value (feed rest) := by
  change (first (feed (items ++ rest))).bind (fun pair => next pair.1 pair.2) = _
  rw [decodes]
  rfl

theorem Decodes.bind {first : Decoder ε σ α} {next : α → Decoder ε σ β}
    {items others : List item} {value : α} {result : β}
    (head : Decodes feed first items value)
    (tail : Decodes feed (next value) others result) :
    Decodes feed (first >>= next) (items ++ others) result := by
  intro rest
  rw [List.append_assoc, head.run_bind]
  exact tail rest

theorem Decodes.map {decoder : Decoder ε σ α} {items : List item} {value : α}
    (transform : α → β) (decodes : Decodes feed decoder items value) :
    Decodes feed (transform <$> decoder) items (transform value) := by
  intro rest
  change (decoder (feed (items ++ rest))).map
    (fun pair => (transform pair.1, pair.2)) = .ok (transform value, feed rest)
  rw [decodes]
  rfl

def times (decoder : Decoder ε σ α) : Nat → Decoder ε σ (List α)
  | 0 => return []
  | count + 1 => do
      let value ← decoder
      let values ← times decoder count
      return value :: values

theorem Decodes.times {decoder : Decoder ε σ α} {encode : α → List item}
    {values : List α}
    (each : ∀ value, value ∈ values → Decodes feed decoder (encode value) value) :
    Decodes feed (Decoder.times decoder values.length)
      (values.flatMap encode) values := by
  induction values with
  | nil => exact Decodes.pure []
  | cons head tail induction =>
      have first := each head (by simp)
      have later := induction fun value member => each value (by simp [member])
      exact first.bind (later.map (fun values => head :: values))

/-- What the decoder takes off the front of a supply that it accepts, and the value it yields,
are as `Post` says. -/
def Accepts (decoder : Decoder ε (List item) α) (Post : α → List item → Prop) : Prop :=
  ∀ supply value rest, decoder supply = .ok (value, rest) →
    ∃ items, supply = items ++ rest ∧ Post value items

theorem Accepts.pure (value : α) :
    Accepts (Pure.pure value : Decoder ε (List item) α) fun result items =>
      result = value ∧ items = [] := by
  intro supply result rest accepted
  cases accepted
  exact ⟨[], rfl, rfl, rfl⟩

theorem Accepts.throw (error : ε) {Post : α → List item → Prop} :
    Accepts (MonadExcept.throw error : Decoder ε (List item) α) Post := by
  intro supply result rest accepted
  cases accepted

theorem Accepts.mono {decoder : Decoder ε (List item) α} {Pre Post : α → List item → Prop}
    (accepts : Accepts decoder Pre) (weaker : ∀ value items, Pre value items → Post value items) :
    Accepts decoder Post := by
  intro supply value rest accepted
  rcases accepts supply value rest accepted with ⟨items, split, holds⟩
  exact ⟨items, split, weaker value items holds⟩

theorem Accepts.bind {first : Decoder ε (List item) α} {next : α → Decoder ε (List item) β}
    {First : α → List item → Prop} {Post : β → List item → Prop}
    (head : Accepts first First)
    (tail : ∀ value items, First value items →
      Accepts (next value) fun result others => Post result (items ++ others)) :
    Accepts (first >>= next) Post := by
  intro supply result rest accepted
  change (first supply).bind (fun pair => next pair.1 pair.2) = _ at accepted
  cases ran : first supply with
  | error error =>
      rw [ran] at accepted
      cases accepted
  | ok pair =>
      rcases pair with ⟨value, middle⟩
      rw [ran] at accepted
      rcases head supply value middle ran with ⟨items, split, holds⟩
      rcases tail value items holds middle result rest accepted with ⟨others, splitToo, post⟩
      exact ⟨items ++ others, by rw [split, splitToo, List.append_assoc], post⟩

theorem Accepts.ite {condition : Prop} [Decidable condition]
    {first second : Decoder ε (List item) α} {Post : α → List item → Prop}
    (yes : condition → Accepts first Post) (no : ¬condition → Accepts second Post) :
    Accepts (if condition then first else second) Post := by
  split
  · rename_i holds
    exact yes holds
  · rename_i fails
    exact no fails

theorem Decodes.exhausts {decoder : Decoder ε σ α} {items : List item} {value : α}
    (decodes : Decodes feed decoder items value) :
    decoder (feed items) = .ok (value, feed []) := by
  simpa using decodes []

end

end Decoder

end SuBinary
