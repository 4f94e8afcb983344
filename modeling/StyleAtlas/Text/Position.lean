/-!
# Line and column positions

A position counts lines and byte columns from zero; positions are ordered line first.

Main definitions:

- `Position`, with its order `Position.compare` and its written form `Position.render`.
- `PositionRange`: a half-open range between two positions.
-/

namespace StyleAtlas

/-- A place in a text: a line and a byte column in it, both counted from zero.  Natural numbers
agree here with words of 32 bits for texts of less than 2 ^ 32 bytes only, whose lines and columns
fit (`Source.positions_match_offsets`); in a longer text such words would wrap around. -/
structure Position where
  line : Nat
  column : Nat
deriving DecidableEq, Repr

namespace Position

/-- Positions are compared by line, then by column. -/
def compare (p q : Position) : Ordering :=
  (Ord.compare p.line q.line).then (Ord.compare p.column q.column)

/-- Positions are ordered as `Position.compare` says. -/
instance : Ord Position := ⟨Position.compare⟩

/-- A position comes before another on an earlier line, or on the same line further left. -/
instance : LT Position where
  lt p q := p.line < q.line ∨ (p.line = q.line ∧ p.column < q.column)

/-- Which of two positions comes first can be decided. -/
instance (p q : Position) : Decidable (p < q) :=
  inferInstanceAs (Decidable (p.line < q.line ∨ (p.line = q.line ∧ p.column < q.column)))

/-- The written form `line:column`. -/
def render (p : Position) : String :=
  toString p.line ++ ":" ++ toString p.column

end Position

/-- The half-open range between two positions. -/
structure PositionRange where
  start : Position
  stop : Position
deriving DecidableEq, Repr

namespace PositionRange

/-- The written form `start-stop`. -/
def render (r : PositionRange) : String :=
  r.start.render ++ "-" ++ r.stop.render

end PositionRange
end StyleAtlas
