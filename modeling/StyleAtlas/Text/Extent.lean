/-!
# Byte extents

An extent is a half-open range of byte offsets.  Nothing keeps its ends in order: a reversed
extent is empty, and contains no offset.

Main definitions:

- `Extent.contains`, `Extent.covers`, `Extent.partiallyOverlaps`: how extents and offsets lie.
- `Extent.locate`: on which side of an offset an extent lies.
-/

namespace StyleAtlas

/-- The half-open range of byte offsets from `start` to `stop`. -/
structure Extent where
  start : Nat
  stop : Nat
deriving DecidableEq, Repr

namespace Extent

/-- The number of offsets in the extent. -/
def size (x : Extent) : Nat :=
  x.stop - x.start

/-- An extent is empty when it ends at or before its start. -/
def isEmpty (x : Extent) : Bool :=
  x.stop ≤ x.start

/-- Whether an offset lies in the extent. -/
def contains (x : Extent) (offset : Nat) : Bool :=
  x.start ≤ offset && offset < x.stop

/-- Whether `y` lies between the ends of `x`. -/
def covers (x y : Extent) : Bool :=
  x.start ≤ y.start && y.stop ≤ x.stop

/-- Whether `x` ends before `y` starts, or the other way round. -/
def apart (x y : Extent) : Bool :=
  x.stop ≤ y.start || y.stop ≤ x.start

/-- Extents that neither nest nor stay apart. -/
def partiallyOverlaps (x y : Extent) : Bool :=
  !x.apart y && !x.covers y && !y.covers x

/-- On which side of an offset the extent lies: `gt` after it, `lt` before it, `eq` around it. -/
def locate (x : Extent) (offset : Nat) : Ordering :=
  if offset < x.start then .gt
  else if x.stop ≤ offset then .lt
  else .eq

/-- The written form `[start, stop)`. -/
def render (x : Extent) : String :=
  "[" ++ toString x.start ++ ", " ++ toString x.stop ++ ")"

/-- An extent lies around exactly the offsets that it contains. -/
theorem locate_eq_eq_iff (x : Extent) (offset : Nat) :
    x.locate offset = .eq ↔ x.contains offset = true := by
  unfold locate contains
  split
  · simp; omega
  · split
    · simp; omega
    · simp; omega

/-- An extent lies before exactly the offsets at or past its end that are not before its
start. -/
theorem locate_eq_lt_iff (x : Extent) (offset : Nat) :
    x.locate offset = .lt ↔ x.start ≤ offset ∧ x.stop ≤ offset := by
  unfold locate
  split
  · simp; omega
  · split
    · simp; omega
    · simp; omega

/-- An extent lies after exactly the offsets before its start. -/
theorem locate_eq_gt_iff (x : Extent) (offset : Nat) :
    x.locate offset = .gt ↔ offset < x.start := by
  unfold locate
  split
  · simpa
  · split <;> simp <;> omega

end Extent
end StyleAtlas
