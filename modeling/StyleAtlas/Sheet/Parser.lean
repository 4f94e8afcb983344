import StyleAtlas.Sheet.Node
import StyleAtlas.Sheet.Piece
import StyleAtlas.Text.Alphanumeric
import StyleAtlas.Text.Case

/-!
# Reading sheets

A sheet is read in two passes: its text is cut into pieces, and the pieces are assembled into a
tree.  A header is a rule, or an at-rule if it starts with `@`.  A statement is an at-rule, or a
declaration if it has a colon; all other statements are dropped.

Main definitions:

- `Sheet.Content.ofHeader`, `Sheet.Content.ofStatement?`: what headers and statements say.
- `Sheet.splitImportant`: a value and its important mark.
- `Sheet.assemble`: the forest that pieces make.
- `Sheet.parse`: the tree of a text.
-/

namespace StyleAtlas
namespace Sheet

/-! ## Headers and statements -/

/-- The characters of at-rule names: alphanumeric characters, hyphen and underscore. -/
def isKeywordChar (c : Char) : Bool :=
  Text.isAlphanumeric c || c == '-' || c == '_'

/-- The at-rule with the given text behind its `@`. -/
def atRuleOf (rest : List Char) : Content :=
  .atRule (rest.takeWhile isKeywordChar) (Text.trim (rest.dropWhile isKeywordChar))

/-- The parts of a text before and after its last `mark`. -/
def splitLast? (mark : Char) : List Char → Option (List Char × List Char)
  | [] => none
  | c :: cs =>
      match splitLast? mark cs with
      | some parts => some (c :: parts.1, parts.2)
      | none => if c = mark then some ([], cs) else none

/-- The parts of a text before and after its first `mark`. -/
def splitFirst? (mark : Char) : List Char → Option (List Char × List Char)
  | [] => none
  | c :: cs =>
      if c = mark then some ([], cs)
      else (splitFirst? mark cs).map fun parts => (c :: parts.1, parts.2)

/-- The word of the important mark, in small letters. -/
def importantWord : List Char :=
  ['i', 'm', 'p', 'o', 'r', 't', 'a', 'n', 't']

/-- A value without its important mark, and whether it had one: the mark is the word behind the
last exclamation mark of the value. -/
def splitImportant (value : List Char) : List Char × Bool :=
  match splitLast? '!' value with
  | some (before, after) =>
      if Text.equalsIgnoringCase (Text.trim after) importantWord then (Text.trimEnd before, true)
      else (value, false)
  | none => (value, false)

/-- What the header of a block says. -/
def Content.ofHeader : List Char → Content
  | '@' :: rest => atRuleOf rest
  | header => .rule (Text.trim header)

/-- What a statement says; without `@` and colon it says nothing. -/
def Content.ofStatement? : List Char → Option Content
  | '@' :: rest => some (atRuleOf rest)
  | text =>
      (splitFirst? ':' text).map fun parts =>
        let value := splitImportant (Text.trim parts.2)
        .declaration (Text.trim parts.1) value.1 value.2

/-- The text of a comment between its delimiters, without blanks at its ends. -/
def commentText (text : List Char) : List Char :=
  Text.trim (text.drop 2).dropLast.dropLast

/-! ## Nodes of pieces -/

/-- The node of a comment. -/
def commentNode (start : Point) (text : List Char) : Node :=
  .mk (.comment (commentText text)) (Span.over? start text) []

/-- The node of a statement: it reaches to its semicolon, or to its last visible character. -/
def statementNode? (start : Point) (text : List Char) (semicolon : Option Point) :
    Option Node :=
  (Content.ofStatement? text).map fun content =>
    let span :=
      match semicolon with
      | some last => some ⟨start, last⟩
      | none => Span.over? start text
    .mk content span []

/-- The node of a block: it reaches from its header to its closing brace. -/
def blockNode (start : Point) (header : List Char) (closing : Point) (children : List Node) :
    Node :=
  .mk (Content.ofHeader header) (some ⟨start, closing⟩) children

/-! ## Assembly -/

/-- A block that is being read: its header, its opening brace, and the nodes before it, the last
one first. -/
structure Frame where
  start : Point
  header : List Char
  brace : Point
  before : List Node

/-- The forest that pieces make, inside the given blocks with the innermost first, where `done`
are the nodes so far, the last one first. -/
def assemble : List Frame → (done : List Node) → List Piece → Except SheetError (List Node)
  | [], done, [] => .ok done.reverse
  | frame :: _, _, [] => .error (.unclosedBlock frame.brace)
  | frames, done, piece :: rest =>
      match piece with
      | .fault error => .error error
      | .comment start text => assemble frames (commentNode start text :: done) rest
      | .opening start header brace => assemble (⟨start, header, brace, done⟩ :: frames) [] rest
      | .statement start text semicolon =>
          match statementNode? start text semicolon with
          | some node => assemble frames (node :: done) rest
          | none => assemble frames done rest
      | .closing brace =>
          match frames with
          | [] => .error (.unexpectedClose brace)
          | frame :: outer =>
              let node := blockNode frame.start frame.header brace done.reverse
              assemble outer (node :: frame.before) rest

/-- The nodes of a text at its top level. -/
def parseForest (text : List Char) : Except SheetError (List Node) :=
  assemble [] [] (pieces Point.origin none (Token.lex .spanning text))

/-- The tree of a text. -/
def parse (text : List Char) : Except SheetError Node :=
  (parseForest text).map (Node.mk .root none)

end Sheet
end StyleAtlas
