import StyleAtlas.Index.Error
import StyleAtlas.Sheet.Point

/-!
# Errors of sheets

Why a text is no sheet, and why a sheet cannot be indexed.
-/

namespace StyleAtlas

/-- Why there is no sheet, or no index of it. -/
inductive SheetError where
  /-- The text ends inside the block whose brace stands here. -/
  | unclosedBlock (brace : Sheet.Point)
  /-- The text ends inside the comment that starts here. -/
  | unclosedComment (start : Sheet.Point)
  /-- The text ends inside the string that starts here. -/
  | unclosedString (start : Sheet.Point)
  /-- The brace here closes no block. -/
  | unexpectedClose (brace : Sheet.Point)
  /-- The spans cannot be indexed. -/
  | index (cause : IndexError)
deriving DecidableEq, Repr

/-- The wording of a sheet error. -/
def SheetError.message : SheetError → String
  | .unclosedBlock brace => "Unclosed block at " ++ brace.render
  | .unclosedComment start => "Unclosed comment at " ++ start.render
  | .unclosedString start => "Unclosed string at " ++ start.render
  | .unexpectedClose brace => "Unexpected \x7d at " ++ brace.render
  | .index cause => cause.message

end StyleAtlas
