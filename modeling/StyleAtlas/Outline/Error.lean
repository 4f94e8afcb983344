import StyleAtlas.Index.Error
import StyleAtlas.Outline.Kind

/-!
# Errors of outlines

Why an event stream, or a stylesheet that the engine refuses, gives no outline.
-/

namespace StyleAtlas

/-- Why there is no outline. -/
inductive OutlineError where
  /-- The engine could not read the stylesheet. -/
  | parse (reason : String) (line column : Nat)
  /-- A container of kind `found` closes where none of that kind is innermost. -/
  | unbalancedExit (expected : Option Kind) (found : Kind)
  /-- A kind without children is entered. -/
  | notContainer (kind : Kind)
  /-- The extents cannot be indexed. -/
  | index (cause : IndexError)
deriving DecidableEq, Repr

namespace OutlineError

/-- The innermost open container as messages show it. -/
def showExpected : Option Kind → String
  | none => "None"
  | some kind => "Some(" ++ kind.name ++ ")"

/-- The wording of an outline error. -/
def message : OutlineError → String
  | .parse reason line column => s!"Parse error at {line}:{column}: {reason}"
  | .unbalancedExit expected found =>
      "Exit of " ++ found.name ++ " does not match open container " ++ showExpected expected
  | .notContainer kind => kind.name ++ " cannot be entered as a container"
  | .index cause => cause.message

end OutlineError
end StyleAtlas
