import StyleAtlas.Text.Source

/-!
# Tokens

The lexical layer of a stylesheet: quoted strings and comments are single tokens, and all other
characters stand for themselves.  A token keeps its whole text, delimiters included, so the texts
of the tokens of a text join to that text again.

A backslash inside a string takes the next character with it.  Whether a line feed may stand in
a string depends on the reader, and is chosen by `Quoting`.

Main definitions:

- `Token`, `Token.text`: tokens and their texts.
- `Token.lex`: the tokens of a text.
- `Placed`, `Source.tokensFrom`: tokens with their offsets.

Main results:

- `Token.flatMap_text_lex`: the tokens of a text neither lose nor add a character.
-/

namespace StyleAtlas

/-- A lexical unit of a stylesheet. -/
inductive Token where
  /-- A character outside strings and comments. -/
  | char (c : Char)
  /-- A string from its opening quote on; `closed` tells whether it ends in its closing quote. -/
  | quoted (content : List Char) (closed : Bool)
  /-- A comment from its opening on; `closed` tells whether it ends in its closing. -/
  | comment (content : List Char) (closed : Bool)
deriving DecidableEq, Repr

/-- What a line feed does inside a string. -/
inductive Quoting where
  /-- It belongs to the string, which runs to its closing quote. -/
  | spanning
  /-- It ends the string, which is then not closed. -/
  | singleLine
deriving DecidableEq, Repr

namespace Token

/-- The text of a token. -/
def text : Token → List Char
  | .char c => [c]
  | .quoted content _ => content
  | .comment content _ => content

/-- Whether a character opens a string. -/
def isQuote (c : Char) : Bool :=
  c == '\x22' || c == '\x27'

/-- Where a reader of characters stands; what was read of an open token is kept in reverse. -/
inductive Mode where
  /-- Outside strings and comments. -/
  | plain
  /-- In a string with this quote. -/
  | inString (quote : Char) (read : List Char)
  /-- In a comment. -/
  | inComment (read : List Char)
deriving DecidableEq, Repr

/-- The text of the open token so far. -/
def Mode.text : Mode → List Char
  | .plain => []
  | .inString _ read => read.reverse
  | .inComment read => read.reverse

/-- The tokens of a text, read from a mode on. -/
def lexFrom (quoting : Quoting) : Mode → List Char → List Token
  | .plain, [] => []
  | .plain, '/' :: '*' :: cs => lexFrom quoting (.inComment ['*', '/']) cs
  | .plain, c :: cs =>
      if isQuote c then lexFrom quoting (.inString c [c]) cs
      else .char c :: lexFrom quoting .plain cs
  | .inComment read, [] => [.comment read.reverse false]
  | .inComment read, '*' :: '/' :: cs =>
      .comment ('/' :: '*' :: read).reverse true :: lexFrom quoting .plain cs
  | .inComment read, c :: cs => lexFrom quoting (.inComment (c :: read)) cs
  | .inString _ read, [] => [.quoted read.reverse false]
  | .inString quote read, '\\' :: c :: cs =>
      lexFrom quoting (.inString quote (c :: '\\' :: read)) cs
  | .inString quote read, c :: cs =>
      if c = quote then .quoted (c :: read).reverse true :: lexFrom quoting .plain cs
      else if c = '\n' ∧ quoting = .singleLine then
        .quoted read.reverse false :: .char c :: lexFrom quoting .plain cs
      else lexFrom quoting (.inString quote (c :: read)) cs

/-- The tokens of a text. -/
def lex (quoting : Quoting) (cs : List Char) : List Token :=
  lexFrom quoting .plain cs

/-- The texts of the tokens that are read from a mode on join to the text of the open token and
what follows it. -/
theorem flatMap_text_lexFrom (quoting : Quoting) (mode : Mode) (cs : List Char) :
    (lexFrom quoting mode cs).flatMap text = mode.text ++ cs := by
  fun_induction lexFrom quoting mode cs <;> simp_all [text, Mode.text]

/-- The texts of the tokens of a text join to that text. -/
theorem flatMap_text_lex (quoting : Quoting) (cs : List Char) :
    (lex quoting cs).flatMap text = cs := by
  simp [lex, flatMap_text_lexFrom, Mode.text]

end Token

/-- A token and the offset at which it starts. -/
structure Placed where
  offset : Nat
  token : Token
deriving DecidableEq, Repr

/-- Tokens placed one after the other from an offset on. -/
def Placed.ofTokens : (offset : Nat) → List Token → List Placed
  | _, [] => []
  | offset, t :: ts => ⟨offset, t⟩ :: ofTokens (offset + Text.byteSize t.text) ts

/-- The tokens of a source from an offset on; a character cut by the offset is left out. -/
def Source.tokensFrom (s : Source) (quoting : Quoting) (offset : Nat) : List Placed :=
  let rest := Text.charsFrom s.chars offset
  Placed.ofTokens (s.size - Text.byteSize rest) (Token.lex quoting rest)

end StyleAtlas
