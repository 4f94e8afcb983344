import StyleAtlas.Text.Blank
import StyleAtlas.Text.Source

/-!
# Points and spans

Places of a sheet as its reader counts them: lines and byte columns from one, with the offset
beside them.  A span names its last character, not the place past it.

Main definitions:

- `Sheet.Point`, `Sheet.Point.advance`: a place, and the place after some characters.
- `Sheet.Span`, `Sheet.Span.over?`: a span, and the span of the visible part of a text.
- `Sheet.Span.extent`: the extent of a span in a source.
-/

namespace StyleAtlas
namespace Sheet

/-- A place in a text; line and byte column are counted from one, the offset from zero.  As with a
`Position`, natural numbers agree with words of 32 bits for lines and columns below 2 ^ 32 only; a
text of less than 2 ^ 32 - 1 bytes has no others, since those of its positions are one less
(`Source.positions_match_offsets`). -/
structure Point where
  line : Nat
  column : Nat
  offset : Nat
deriving DecidableEq, Repr

/-- The characters from `first` to `last`, both included. -/
structure Span where
  first : Point
  last : Point
deriving DecidableEq, Repr

namespace Point

/-- The place of the first character of a text. -/
def origin : Point :=
  ⟨1, 1, 0⟩

/-- The place after a character. -/
def next (p : Point) (c : Char) : Point :=
  if c = '\n' then ⟨p.line + 1, 1, p.offset + c.utf8Size⟩
  else ⟨p.line, p.column + c.utf8Size, p.offset + c.utf8Size⟩

/-- The place after some characters. -/
def advance (p : Point) (cs : List Char) : Point :=
  cs.foldl next p

/-- The place of the last character that is not blank, of characters that start at a place. -/
def lastVisible? (p : Point) : List Char → Option Point
  | [] => none
  | c :: cs =>
      match lastVisible? (p.next c) cs with
      | some last => some last
      | none => if Text.isBlank c then none else some p

/-- The same place counted from zero; a line or column of zero stays zero. -/
def position (p : Point) : Position :=
  ⟨p.line - 1, p.column - 1⟩

/-- The written form `line:column`. -/
def render (p : Point) : String :=
  toString p.line ++ ":" ++ toString p.column

end Point

namespace Span

/-- The span from the start of a text to its last character that is not blank. -/
def over? (start : Point) (cs : List Char) : Option Span :=
  (start.lastVisible? cs).map fun last => ⟨start, last⟩

/-- The extent of a span in a source: from the character nearest to its start to the end of the
character nearest to its end, never reversed. -/
def extent (source : Source) (span : Span) : Extent :=
  let start := source.clamp span.first.position
  let last := source.clamp span.last.position
  let stop :=
    match Text.charsFrom source.chars last with
    | c :: _ => last + c.utf8Size
    | [] => last
  ⟨start, max stop start⟩

end Span
end Sheet
end StyleAtlas
