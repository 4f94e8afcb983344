import StyleAtlas.Text.Extent

/-!
# Search among extents

Finding one of several candidates whose extent contains an offset.  Candidates are usually in
source order and apart, so they are searched by halving first; candidates that overlap or are
out of order may mislead the halving, and then the tightest candidate around the offset is
taken.

Main definitions:

- `halve`: the halving search.
- `tightest?`: the first candidate of least size around the offset.
- `search`: halving first, then the tightest.
-/

namespace StyleAtlas
namespace Index

variable {α : Type}

/-- Narrow a stretch of `size` candidates from `base` on to one of them.  The upper half is kept
unless its first candidate lies after the offset; `fuel` bounds the number of halvings. -/
def halve (side : Nat → Ordering) : (fuel base size : Nat) → Nat
  | 0, base, _ => base
  | fuel + 1, base, size =>
      if size ≤ 1 then base
      else
        let half := size / 2
        let middle := base + half
        halve side fuel (if side middle = .gt then base else middle) (size - half)

/-- The candidate that the halving search ends at, when its extent contains the offset. -/
def halvingSearch? (extent : α → Extent) (candidates : List α) (offset : Nat) : Option α :=
  let side i :=
    match candidates[i]? with
    | some a => (extent a).locate offset
    | none => .gt
  match candidates[halve side candidates.length 0 candidates.length]? with
  | some a => if (extent a).locate offset = .eq then some a else none
  | none => none

/-- The first candidate of least size. -/
def smallest? (extent : α → Extent) : List α → Option α
  | [] => none
  | a :: as =>
      match smallest? extent as with
      | none => some a
      | some b => if (extent b).size < (extent a).size then some b else some a

/-- The first candidate of least size whose extent contains the offset. -/
def tightest? (extent : α → Extent) (candidates : List α) (offset : Nat) : Option α :=
  smallest? extent (candidates.filter fun a => (extent a).contains offset)

/-- A candidate whose extent contains the offset: the one that halving ends at, else the
tightest. -/
def search (extent : α → Extent) (candidates : List α) (offset : Nat) : Option α :=
  match halvingSearch? extent candidates offset with
  | some a => some a
  | none => tightest? extent candidates offset

end Index
end StyleAtlas
