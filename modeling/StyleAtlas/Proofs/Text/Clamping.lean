import Mathlib.Data.Nat.Find
import StyleAtlas.Proofs.Text.Positions

/-!
# Positions lowered to the text

The conversion of a position makes three checks in turn: whether the line exists, whether the column
lies on it, and whether the place stands between two characters.  The strict conversion refuses a
position at the first check that it fails.  The lenient one goes on with the last line, with the end
of the line, and back from the place step by step until it meets a boundary.  So it refuses nothing,
and what it finds is the greatest boundary that the line has up to the column.

Main results:

- Definition `Source.convert`: the conversion, check by check.
- Theorem `Source.positionOf_lineStart_add`: the position of a place on a line.
- Theorem `Source.isBoundary_lineStart_add`: the boundaries of a line are those of the text.
- Theorems `Source.convert_strict`, `Source.convert_lenient`: the conversion in its two modes.
- Theorem `Source.lenient_conversion_clamps`: where lenient conversion leads.
-/

namespace StyleAtlas
namespace Text

/-- A column past the end of a line is lowered to the end. -/
theorem floorBoundary_min (cs : List Char) (n : Nat) :
    floorBoundary cs (min n (byteSize cs)) = floorBoundary cs n := by
  apply Nat.le_antisymm
  · exact le_floorBoundary (isBoundary_floorBoundary cs _)
      ((floorBoundary_le cs _).trans (Nat.min_le_left _ _))
  · exact le_floorBoundary (isBoundary_floorBoundary cs n)
      (Nat.le_min.mpr ⟨floorBoundary_le cs n, floorBoundary_le_byteSize cs n⟩)

/-- Lowering keeps the order of byte counts. -/
theorem floorBoundary_mono (cs : List Char) : Monotone (floorBoundary cs) := by
  intro m n hle
  exact le_floorBoundary (isBoundary_floorBoundary cs m) ((floorBoundary_le cs m).trans hle)

end Text

namespace Source

open Text

/-! ## The conversion -/

/-- The line that a position counts as being on: its own, or the last one. -/
def lineFor (s : Source) (p : Position) : Nat :=
  min p.line (s.lineCount - 1)

/-- The content of the line that a position counts as being on. -/
def contentFor (s : Source) (p : Position) : List Char :=
  s.lines.getD (s.lineFor p) []

/-- The place of a position, its column lowered to the length of the line.  It may stand inside a
character. -/
def placeFor (s : Source) (p : Position) : Nat :=
  s.lineStart (s.lineFor p) + min p.column (byteSize (s.contentFor p))

/-- Convert a position, check by check.  A line that does not exist, a column past the end of the
line and a place inside a character are refused, or else made to fit. -/
def convert (s : Source) (strict : Bool) (p : Position) : Except TextError Nat :=
  if strict && s.lineCount ≤ p.line then .error (.lineOutOfRange p.line s.lineCount)
  else
    let size := byteSize (s.contentFor p)
    if strict && size < p.column then .error (.columnOutOfRange p.line p.column size)
    else if strict && !isBoundary s.chars (s.placeFor p) then
      .error (.columnOutOfRange p.line p.column size)
    else .ok (Nat.findGreatest (fun place => isBoundary s.chars place = true) (s.placeFor p))

/-! ## Places on a line -/

/-- The line that a position counts as being on exists. -/
theorem lineFor_lt (s : Source) (p : Position) : s.lineFor p < s.lineCount := by
  have hpos := s.lineCount_pos
  unfold lineFor
  omega

/-- A position on a line that exists counts as being on it. -/
theorem lineFor_of_lt {s : Source} {p : Position} (h : p.line < s.lineCount) :
    s.lineFor p = p.line := by
  unfold lineFor
  omega

/-- The line that a position counts as being on has its content. -/
theorem line?_lineFor (s : Source) (p : Position) :
    s.line? (s.lineFor p) = some (s.contentFor p) := by
  have hlt : s.lineFor p < s.lines.length := s.lineFor_lt p
  simp [line?, contentFor, List.getElem?_eq_getElem hlt]

/-- A position is made to fit on its line: the column is lowered to a boundary of the line. -/
theorem clamp_eq (s : Source) (p : Position) :
    s.clamp p = s.lineStart (s.lineFor p) + floorBoundary (s.contentFor p) p.column :=
  rfl

/-- A place on a line has the position that it is counted from. -/
theorem positionOf_lineStart_add {s : Source} {n column : Nat} {line : List Char}
    (hline : s.line? n = some line) (hcolumn : column ≤ byteSize line) :
    s.positionOf (s.lineStart n + column) = .ok ⟨n, column⟩ := by
  have hlt : n < s.lines.length := (List.getElem?_eq_some_iff.mp hline).1
  have hcontent : s.lines.getD n [] = line := by
    rw [List.getD_eq_getElem?_getD, show s.lines[n]? = some line from hline]
    rfl
  have hend := lineOffset_add_byteSize_le s.chars hlt
  rw [show (splitLines s.chars).getD n [] = line from hcontent] at hend
  refine positionOf_eq_ok_iff.mpr ⟨?_, hlt, rfl, fun _ => by rwa [hcontent]⟩
  simp only [lineStart, lines, size]
  omega

/-- The boundaries of the text on a line are the boundaries of the line. -/
theorem isBoundary_lineStart_add {s : Source} {n column : Nat} {line : List Char}
    (hline : s.line? n = some line) (hcolumn : column ≤ byteSize line) :
    isBoundary s.chars (s.lineStart n + column) = isBoundary line column := by
  have hposition := positionOf_lineStart_add hline hcolumn
  have hstrict : s.offsetOf ⟨n, column⟩ = .ok (s.lineStart n + column) ↔
      isBoundary s.chars (s.lineStart n + column) = true ∧
        s.positionOf (s.lineStart n + column) = .ok ⟨n, column⟩ := offsetOf_eq_ok_iff
  rw [Bool.eq_iff_iff]
  constructor
  · intro hboundary
    by_contra hnot
    have hoffset := hstrict.mpr ⟨hboundary, hposition⟩
    simp [offsetOf, hline, hnot] at hoffset
  · intro hboundary
    exact (hstrict.mp (by simp [offsetOf, hline, hboundary])).1

/-- The place of a position is on the line that the position counts as being on. -/
theorem positionOf_placeFor (s : Source) (p : Position) :
    s.positionOf (s.placeFor p) =
      .ok ⟨s.lineFor p, min p.column (byteSize (s.contentFor p))⟩ :=
  positionOf_lineStart_add (s.line?_lineFor p) (Nat.min_le_right _ _)

/-! ## The greatest boundary of the line up to the column -/

/-- A position is lowered to the greatest boundary that is not past its place. -/
theorem isGreatest_clamp_placeFor (s : Source) (p : Position) :
    IsGreatest {place | isBoundary s.chars place = true ∧ place ≤ s.placeFor p} (s.clamp p) := by
  have hsame : s.clamp ⟨s.lineFor p, min p.column (byteSize (s.contentFor p))⟩ = s.clamp p := by
    have hline : ∀ column, s.lineFor ⟨s.lineFor p, column⟩ = s.lineFor p :=
      fun _ => lineFor_of_lt (s.lineFor_lt p)
    have hcontent : ∀ column, s.contentFor ⟨s.lineFor p, column⟩ = s.contentFor p :=
      fun column => by rw [contentFor, hline, contentFor]
    rw [clamp_eq, clamp_eq, hline, hcontent, floorBoundary_min]
  rw [← hsame]
  exact isGreatest_clamp (s.positionOf_placeFor p)

/-- Stepping back from the place of a position meets the boundary to which it is lowered. -/
theorem findGreatest_placeFor (s : Source) (p : Position) :
    Nat.findGreatest (fun place => isBoundary s.chars place = true) (s.placeFor p) =
      s.clamp p := by
  rcases s.isGreatest_clamp_placeFor p with ⟨⟨hboundary, hle⟩, hupper⟩
  apply Nat.le_antisymm
  · apply hupper
    exact ⟨Nat.findGreatest_spec (P := fun place => isBoundary s.chars place = true) hle hboundary,
      Nat.findGreatest_le _⟩
  · exact Nat.le_findGreatest hle hboundary

/-- A lowered position is on the line that it counts as being on, not past its column. -/
theorem positionOf_clamp (s : Source) (p : Position) :
    s.positionOf (s.clamp p) =
      .ok ⟨s.lineFor p, floorBoundary (s.contentFor p) p.column⟩ :=
  positionOf_lineStart_add (s.line?_lineFor p) (floorBoundary_le_byteSize _ _)

/-- Lowering a lowered position again leaves it where it is. -/
theorem clamp_of_positionOf_clamp {s : Source} {p q : Position}
    (h : s.positionOf (s.clamp p) = .ok q) : s.clamp q = s.clamp p := by
  have hoffset : s.offsetOf q = .ok (s.clamp p) :=
    offsetOf_eq_ok_iff.mpr ⟨s.isBoundary_clamp p, h⟩
  exact (isBoundary_of_offsetOf hoffset).2

/-- Further right on the same line is lowered to no earlier place. -/
theorem clamp_mono (s : Source) (line : Nat) {column column' : Nat} (h : column ≤ column') :
    s.clamp ⟨line, column⟩ ≤ s.clamp ⟨line, column'⟩ :=
  Nat.add_le_add_left (floorBoundary_mono _ h) _

/-! ## Both modes -/

/-- The strict conversion accepts the boundaries of existing lines. -/
theorem convert_strict (s : Source) (p : Position) : s.convert true p = s.offsetOf p := by
  rcases Nat.lt_or_ge p.line s.lineCount with hline | hline
  · have hfor := lineFor_of_lt hline
    have hcontent : s.line? p.line = some (s.contentFor p) := by
      rw [← hfor, line?_lineFor]
    have hexists : ¬s.lineCount ≤ p.line := Nat.not_le.mpr hline
    rcases Nat.lt_or_ge (byteSize (s.contentFor p)) p.column with hcolumn | hcolumn
    · -- A boundary lies on its line, so a column past the end is none.
      have hboundary : isBoundary (s.contentFor p) p.column = false := by
        by_contra hnot
        have := le_byteSize_of_isBoundary (Bool.of_not_eq_false hnot)
        omega
      simp [convert, offsetOf, hcontent, hboundary, hexists, hcolumn]
    · have hfits : ¬byteSize (s.contentFor p) < p.column := Nat.not_lt.mpr hcolumn
      have hplace : s.placeFor p = s.lineStart p.line + p.column := by
        rw [placeFor, hfor, Nat.min_eq_left hcolumn]
      have hsame := isBoundary_lineStart_add hcontent hcolumn
      rw [← hplace] at hsame
      cases hboundary : isBoundary (s.contentFor p) p.column with
      | false => simp [convert, offsetOf, hcontent, hboundary, hexists, hfits, hsame]
      | true =>
          simpa [convert, offsetOf, hcontent, hboundary, hexists, hfits, hsame] using hplace
  · have hnone : s.line? p.line = none := List.getElem?_eq_none hline
    simp [convert, offsetOf, hnone, hline]

/-- The lenient conversion refuses nothing. -/
theorem convert_lenient (s : Source) (p : Position) : s.convert false p = .ok (s.clamp p) := by
  simp [convert, findGreatest_placeFor]

/-- Lenient conversion of any position.  It refuses nothing, and leads to the greatest boundary of
the text that is not past the column, or the end, of the line that the position counts as being on.
That boundary is on this line, and the position of it, which is nowhere past the given one, is
converted to it again.  Where the strict conversion accepts the position both agree, and further
right on the same line the result is no smaller. -/
theorem lenient_conversion_clamps (s : Source) (p : Position) :
    s.convert false p = .ok (s.clamp p) ∧
    IsGreatest {place | isBoundary s.chars place = true ∧
      place ≤ s.lineStart (s.lineFor p) + min p.column (byteSize (s.contentFor p))} (s.clamp p) ∧
    s.lineStart (s.lineFor p) ≤ s.clamp p ∧
    (∃ column, s.positionOf (s.clamp p) = .ok ⟨s.lineFor p, column⟩ ∧
      s.lineFor p ≤ p.line ∧ column ≤ min p.column (byteSize (s.contentFor p)) ∧
      s.convert false ⟨s.lineFor p, column⟩ = .ok (s.clamp p)) ∧
    s.convert true p = s.offsetOf p ∧
    (∀ offset, s.convert true p = .ok offset → s.convert false p = .ok offset) ∧
    ∀ column, p.column ≤ column → s.clamp p ≤ s.clamp ⟨p.line, column⟩ := by
  refine ⟨s.convert_lenient p, s.isGreatest_clamp_placeFor p, Nat.le_add_right _ _, ?_,
    s.convert_strict p, ?_, fun column hle => s.clamp_mono p.line hle⟩
  · have hposition := s.positionOf_clamp p
    refine ⟨_, hposition, Nat.min_le_left _ _, ?_, ?_⟩
    · exact Nat.le_min.mpr ⟨floorBoundary_le _ _, floorBoundary_le_byteSize _ _⟩
    · rw [convert_lenient, clamp_of_positionOf_clamp hposition]
  · intro offset hoffset
    rw [convert_strict] at hoffset
    rw [convert_lenient, (isBoundary_of_offsetOf hoffset).2]

end Source
end StyleAtlas
