/-!
# Errors of text conversions

Why a position, an offset or a range has no counterpart in a text, and how that is said.
-/

namespace StyleAtlas

/-- Why a conversion between offsets and positions fails. -/
inductive TextError where
  /-- The text has only `lineCount` lines. -/
  | lineOutOfRange (line lineCount : Nat)
  /-- The line has no character boundary at this column. -/
  | columnOutOfRange (line column lineSize : Nat)
  /-- The offset lies past the end of the text, or inside a character. -/
  | offsetOutOfRange (offset size : Nat)
  /-- The range ends before it starts. -/
  | reversedRange (start stop : Nat)
deriving DecidableEq, Repr

/-- The wording of a text error. -/
def TextError.message : TextError → String
  | .lineOutOfRange line lineCount =>
      s!"Line {line} out of range (document has {lineCount} lines)"
  | .columnOutOfRange line column lineSize =>
      s!"Column {column} out of range on line {line} (length {lineSize})"
  | .offsetOutOfRange offset size =>
      s!"Offset {offset} out of range (document length {size})"
  | .reversedRange start stop =>
      s!"Reversed range: end {stop} before start {start}"

end StyleAtlas
