import StyleAtlas.Text.Blank
import StyleAtlas.Text.Case
import StyleAtlas.Text.Token

/-!
# Where rules and values end

The end of the rule or statement that starts at an offset, and whether a value that starts at an
offset is marked important.

Main definitions:

- `Hint.blockEnd`: past the brace that closes the rule, or past the semicolon of a statement.
- `Hint.isImportant`: whether a value carries the important mark.
-/

namespace StyleAtlas
namespace Hint

/-- Past the closing brace of the block, or past the semicolon of a statement without one; at
`size` where the tokens end first.  `braces` and `parens` count what is open. -/
def blockEndFrom (size : Nat) : (braces parens : Nat) → List Placed → Nat
  | _, _, [] => size
  | braces, parens, t :: ts =>
      match t.token with
      | .char '(' => blockEndFrom size braces (parens + 1) ts
      | .char ')' => blockEndFrom size braces (parens - 1) ts
      | .char ';' =>
          if braces = 0 ∧ parens = 0 then t.offset + 1 else blockEndFrom size braces parens ts
      | .char '{' => blockEndFrom size (braces + 1) parens ts
      | .char '}' =>
          if braces ≤ 1 then t.offset + 1 else blockEndFrom size (braces - 1) parens ts
      | _ => blockEndFrom size braces parens ts

/-- The end of the rule that starts at an offset: past its closing brace, or past the semicolon
of a statement, or the end of the source. -/
def blockEnd (source : Source) (start : Nat) : Nat :=
  blockEndFrom source.size 0 0 (source.tokensFrom .singleLine start)

/-- The mark of important declarations, in small letters and without blanks. -/
def importantMark : List Char :=
  ['!', 'i', 'm', 'p', 'o', 'r', 't', 'a', 'n', 't']

/-- Whether the value that starts at an offset carries the important mark, in any case and with
any blanks in it. -/
def isImportant (source : Source) (start : Nat) : Bool :=
  let value := (Text.slice? source.chars start (blockEnd source start)).getD []
  Text.containsRun importantMark (Text.lower (value.filter fun c => !Text.isBlank c))

end Hint
end StyleAtlas
