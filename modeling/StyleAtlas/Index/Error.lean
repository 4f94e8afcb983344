import StyleAtlas.Text.Error

/-!
# Errors of range indexes

Why an entry cannot be added to a range index.
-/

namespace StyleAtlas

/-- Why an entry is refused. -/
inductive IndexError where
  /-- Its range does not name a part of the text. -/
  | text (cause : TextError)
  /-- Its key is taken by an earlier entry. -/
  | duplicateKey (ordinal : Nat)
deriving DecidableEq, Repr

/-- The wording of an index error. -/
def IndexError.message : IndexError → String
  | .text cause => cause.message
  | .duplicateKey ordinal => s!"Key already indexed at ordinal {ordinal}"

end StyleAtlas
