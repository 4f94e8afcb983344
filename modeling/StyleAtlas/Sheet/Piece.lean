import StyleAtlas.Sheet.Error
import StyleAtlas.Text.Token

/-!
# Pieces of a sheet

The text of a sheet is first cut into pieces, from left to right and without regard to how
blocks nest: comments between items, the headers of blocks, statements, and closing braces.
Between items blanks and semicolons are skipped.  Inside an item, strings, comments and what
stands in parentheses hide the braces and semicolons that would end it.

Main definitions:

- `Sheet.Piece`: one piece.
- `Sheet.Item.feed`, `Sheet.between`: one token inside an item, and between items.
- `Sheet.pieces`: the pieces of a list of tokens.
-/

namespace StyleAtlas
namespace Sheet

/-- What the reader finds in a sheet, in order. -/
inductive Piece where
  /-- A comment between items, with its delimiters. -/
  | comment (start : Point) (text : List Char)
  /-- The header of a block, and the brace that opens it. -/
  | opening (start : Point) (header : List Char) (brace : Point)
  /-- An item without a block, and the semicolon that ends it, if one does. -/
  | statement (start : Point) (text : List Char) (semicolon : Option Point)
  /-- A closing brace between items. -/
  | closing (brace : Point)
  /-- A string or comment that does not end. -/
  | fault (error : SheetError)
deriving DecidableEq, Repr

/-- An item that is being read: where it starts, what was read of it in reverse, and the number
of open parentheses. -/
structure Item where
  start : Point
  read : List Char
  parens : Nat
deriving DecidableEq, Repr

namespace Item

/-- An item of which nothing was read. -/
def begin (start : Point) : Item :=
  ⟨start, [], 0⟩

/-- The text read so far. -/
def text (item : Item) : List Char :=
  item.read.reverse

/-- The item with more text. -/
def extend (item : Item) (cs : List Char) : Item :=
  { item with read := cs.reverse ++ item.read }

/-- The item with one more character, which may be a parenthesis. -/
def extendChar (item : Item) (c : Char) : Item :=
  let parens :=
    if c = '(' then item.parens + 1 else if c = ')' then item.parens - 1 else item.parens
  ⟨item.start, c :: item.read, parens⟩

/-- One token at a place inside an item: the pieces that it completes, and the item that goes
on. -/
def feed (item : Item) (p : Point) : Token → List Piece × Option Item
  | .char c =>
      if item.parens = 0 ∧ c = '{' then ([.opening item.start item.text p], none)
      else if item.parens = 0 ∧ c = ';' then ([.statement item.start item.text (some p)], none)
      else if item.parens = 0 ∧ c = '}' then
        ([.statement item.start item.text none, .closing p], none)
      else ([], some (item.extendChar c))
  | .quoted content _ => ([], some (item.extend content))
  | .comment content _ => ([], some (item.extend content))

end Item

/-- One token at a place between items: the pieces that it makes, and the item that it begins. -/
def between (p : Point) : Token → List Piece × Option Item
  | .char c =>
      if Text.isBlank c ∨ c = ';' then ([], none)
      else if c = '}' then ([.closing p], none)
      else (Item.begin p).feed p (.char c)
  | .quoted content closed => (Item.begin p).feed p (.quoted content closed)
  | .comment content _ => ([.comment p content], none)

/-- The error of a token that does not end. -/
def fault? (p : Point) : Token → Option SheetError
  | .char _ => none
  | .quoted _ closed => if closed then none else some (.unclosedString p)
  | .comment _ closed => if closed then none else some (.unclosedComment p)

/-- One token at a place: the pieces that it completes, and the item that is open after it. -/
def step (p : Point) (item : Option Item) (t : Token) : List Piece × Option Item :=
  match item with
  | some item => item.feed p t
  | none => between p t

/-- The pieces of a list of tokens from a place on, where an item may be open. -/
def pieces : Point → Option Item → List Token → List Piece
  | _, none, [] => []
  | _, some item, [] => [.statement item.start item.text none]
  | p, item, t :: ts =>
      match fault? p t with
      | some error => [.fault error]
      | none => (step p item t).1 ++ pieces (p.advance t.text) (step p item t).2 ts

end Sheet
end StyleAtlas
