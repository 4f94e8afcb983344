import StyleAtlas.Index.Basic

/-!
# Projection between trees

Two trees over the same source agree on offsets, so a node of one is carried to the other by
looking up an offset of its extent there.  The offset is one past the start, which steps over an
opening delimiter, without leaving the extent.
-/

namespace StyleAtlas

/-- The offset that stands for an extent: one past its start, but inside it where it is not
empty. -/
def Extent.probe (x : Extent) : Nat :=
  if x.isEmpty then x.start else min (x.start + 1) (x.stop - 1)

/-- The node of an index that an extent of another tree is carried to. -/
def RangeIndex.project {κ : Type} [DecidableEq κ] (index : RangeIndex κ) (x : Extent) :
    Option κ :=
  index.nodeAt x.probe

/-- The probe of an extent that is not empty lies in it. -/
theorem Extent.contains_probe {x : Extent} (h : x.isEmpty = false) :
    x.contains x.probe = true := by
  simp only [probe, h]
  simp only [isEmpty, decide_eq_false_iff_not] at h
  simp only [contains, Bool.and_eq_true, decide_eq_true_eq, Bool.false_eq_true, if_false]
  omega

end StyleAtlas
