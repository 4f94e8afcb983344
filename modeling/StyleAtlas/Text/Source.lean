import StyleAtlas.Text.Error
import StyleAtlas.Text.Extent
import StyleAtlas.Text.Measure
import StyleAtlas.Text.Position

/-!
# Source texts

A source text and the two ways to name a place in it: by byte offset, and by line and column.
Lines end at line feeds only, so a carriage return belongs to its line, and every text has at
least one line.

Main definitions:

- `Source.lines`, `Source.lineStart`: the line table.
- `Source.positionOf`: from offsets to positions.
- `Source.offsetOf`, `Source.clamp`: from positions to offsets, exactly or to the nearest place.
- `Source.sliceOffsets`, `Source.slice`: the text of a range.
- `Source.byteColumn`: from columns in UTF-16 units to byte columns.
-/

namespace StyleAtlas

/-- A text whose places are named by byte offsets and by positions. -/
structure Source where
  chars : List Char
deriving DecidableEq

namespace Text

/-- A text cut at its line feeds, which belong to no line. -/
def splitLines : List Char → List (List Char)
  | [] => [[]]
  | c :: cs =>
      if c = '\n' then [] :: splitLines cs
      else
        match splitLines cs with
        | [] => [[c]]
        | line :: lines => (c :: line) :: lines

/-- Every text has a line. -/
theorem splitLines_ne_nil (cs : List Char) : splitLines cs ≠ [] := by
  cases cs with
  | nil => simp [splitLines]
  | cons c cs =>
      unfold splitLines
      split
      · simp
      · split <;> simp

/-- The offset of the first character of line `n`, or past the end when there is none. -/
def lineOffset : List (List Char) → Nat → Nat
  | _, 0 => 0
  | [], _ + 1 => 0
  | line :: lines, n + 1 => byteSize line + 1 + lineOffset lines n

/-- The line and column of an offset into the given lines; `line` counts the lines before. -/
def positionIn : List (List Char) → (line : Nat) → (offset : Nat) → Position
  | [], line, offset => ⟨line, offset⟩
  | [_], line, offset => ⟨line, offset⟩
  | first :: lines, line, offset =>
      if offset ≤ byteSize first then ⟨line, offset⟩
      else positionIn lines (line + 1) (offset - (byteSize first + 1))

end Text

namespace Source

open Text

/-- The source with the characters of a string. -/
def ofString (text : String) : Source :=
  ⟨text.toList⟩

/-- The length of the source in bytes. -/
def size (s : Source) : Nat :=
  byteSize s.chars

/-- Whether the source has no characters. -/
def isEmpty (s : Source) : Bool :=
  s.chars.isEmpty

/-! ## Lines -/

/-- The lines of the source, without their line feeds. -/
def lines (s : Source) : List (List Char) :=
  splitLines s.chars

/-- The number of lines, which is never zero. -/
def lineCount (s : Source) : Nat :=
  s.lines.length

/-- The content of line `n`. -/
def line? (s : Source) (n : Nat) : Option (List Char) :=
  s.lines[n]?

/-- The offset at which line `n` starts. -/
def lineStart (s : Source) (n : Nat) : Nat :=
  lineOffset s.lines n

/-- A source has a line. -/
theorem lineCount_pos (s : Source) : 0 < s.lineCount :=
  List.length_pos_iff.mpr (splitLines_ne_nil s.chars)

/-! ## Offsets and positions -/

/-- The position of an offset of the source.  An offset inside a character has a position too,
at which no character starts. -/
def positionOf (s : Source) (offset : Nat) : Except TextError Position :=
  if s.size < offset then .error (.offsetOutOfRange offset s.size)
  else .ok (positionIn s.lines 0 offset)

/-- The offset of a position: its line must exist, and its column must be a character boundary
of that line. -/
def offsetOf (s : Source) (p : Position) : Except TextError Nat :=
  match s.line? p.line with
  | none => .error (.lineOutOfRange p.line s.lineCount)
  | some line =>
      if isBoundary line p.column then .ok (s.lineStart p.line + p.column)
      else .error (.columnOutOfRange p.line p.column (byteSize line))

/-- The offset nearest to a position: lines past the last one count as the last, and columns
are lowered to a character boundary of the line. -/
def clamp (s : Source) (p : Position) : Nat :=
  let n := min p.line (s.lineCount - 1)
  s.lineStart n + floorBoundary (s.lines.getD n []) p.column

/-- The position just past the last character. -/
def endPosition (s : Source) : Position :=
  let n := s.lineCount - 1
  ⟨n, byteSize (s.lines.getD n [])⟩

/-! ## Ranges -/

/-- The text of an extent. -/
def sliceOffsets (s : Source) (x : Extent) : Except TextError (List Char) :=
  if x.stop < x.start then .error (.reversedRange x.start x.stop)
  else if s.size < x.stop then .error (.offsetOutOfRange x.stop s.size)
  else
    match slice? s.chars x.start x.stop with
    | some text => .ok text
    | none => .error (.offsetOutOfRange x.start s.size)

/-- The text between two positions. -/
def slice (s : Source) (r : PositionRange) : Except TextError (List Char) := do
  let start ← s.offsetOf r.start
  let stop ← s.offsetOf r.stop
  s.sliceOffsets ⟨start, stop⟩

/-- The extent between two positions. -/
def extentOf (s : Source) (r : PositionRange) : Except TextError Extent := do
  let start ← s.offsetOf r.start
  let stop ← s.offsetOf r.stop
  if stop < start then .error (.reversedRange start stop)
  else .ok ⟨start, stop⟩

/-- The positions of the two ends of an extent. -/
def rangeOf (s : Source) (x : Extent) : Except TextError PositionRange := do
  let start ← s.positionOf x.start
  let stop ← s.positionOf x.stop
  return ⟨start, stop⟩

/-! ## UTF-16 columns -/

/-- The byte column of a column in UTF-16 units; columns past the end of the line give its
length. -/
def byteColumn (s : Source) (line units : Nat) : Except TextError Nat :=
  match s.line? line with
  | none => .error (.lineOutOfRange line s.lineCount)
  | some content => .ok (unitsToBytes content units)

end Source
end StyleAtlas
