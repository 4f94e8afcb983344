/-!
# Kinds of outline nodes

What the nodes of an outline stand for, and which of them may own children.
-/

namespace StyleAtlas

/-- The kind of an outline node. -/
inductive Kind where
  | angle
  | color
  | customIdent
  | dashedIdent
  | declaration
  | environmentVariable
  | function
  | image
  | mediaQuery
  | ratio
  | resolution
  | rule
  | selector
  | supportsCondition
  | time
  | token
  | url
  | customVariable
deriving DecidableEq, Repr

namespace Kind

/-- Every kind, in alphabetical order. -/
def all : List Kind :=
  [angle, color, customIdent, dashedIdent, declaration, environmentVariable, function, image,
    mediaQuery, ratio, resolution, rule, selector, supportsCondition, time, token, url,
    customVariable]

/-- The list of all kinds leaves none out. -/
theorem mem_all (k : Kind) : k ∈ all := by
  cases k <;> decide

/-- Whether nodes of this kind are entered and left, and may own children. -/
def isContainer : Kind → Bool
  | rule | declaration | function | mediaQuery | customVariable | image | environmentVariable
  | supportsCondition => true
  | _ => false

/-- The written name of a kind. -/
def name : Kind → String
  | angle => "Angle"
  | color => "Color"
  | customIdent => "CustomIdent"
  | dashedIdent => "DashedIdent"
  | declaration => "Declaration"
  | environmentVariable => "EnvironmentVariable"
  | function => "Function"
  | image => "Image"
  | mediaQuery => "MediaQuery"
  | ratio => "Ratio"
  | resolution => "Resolution"
  | rule => "Rule"
  | selector => "Selector"
  | supportsCondition => "SupportsCondition"
  | time => "Time"
  | token => "Token"
  | url => "Url"
  | customVariable => "Variable"

end Kind
end StyleAtlas
