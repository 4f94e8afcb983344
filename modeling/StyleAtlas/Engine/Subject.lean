import StyleAtlas.Hint.Occurrence
import StyleAtlas.Outline.Kind

/-!
# What the engine reports on

The values that the engine reports while it walks a stylesheet, and what an outline shows of
them: kind, label, detail, and the signature by which the value is found in the source.

Main definitions:

- `RuleType`, `ImageType`, `Component`: closed vocabularies with their labels.
- `Subject`: a reported value that becomes one node.
- `Subject.kind`, `Subject.label`, `Subject.detail`, `Subject.signature?`: what is shown of it.
-/

namespace StyleAtlas

/-- The types of rules. -/
inductive RuleType where
  | media
  | importRule
  | style
  | keyframes
  | fontFace
  | fontPaletteValues
  | fontFeatureValues
  | page
  | supports
  | counterStyle
  | namespaceRule
  | mozDocument
  | nesting
  | nestedDeclarations
  | viewport
  | customMedia
  | layerStatement
  | layerBlock
  | property
  | container
  | scope
  | startingStyle
  | viewTransition
  | positionTry
  | unknown
  | ignored
  | custom
deriving DecidableEq, Repr

namespace RuleType

/-- The label of a rule. -/
def label : RuleType → String
  | media => "media"
  | importRule => "import"
  | style => "style"
  | keyframes => "keyframes"
  | fontFace => "font-face"
  | fontPaletteValues => "font-palette-values"
  | fontFeatureValues => "font-feature-values"
  | page => "page"
  | supports => "supports"
  | counterStyle => "counter-style"
  | namespaceRule => "namespace"
  | mozDocument => "moz-document"
  | nesting => "nesting"
  | nestedDeclarations => "nested-declarations"
  | viewport => "viewport"
  | customMedia => "custom-media"
  | layerStatement => "layer-statement"
  | layerBlock => "layer-block"
  | property => "property"
  | container => "container"
  | scope => "scope"
  | startingStyle => "starting-style"
  | viewTransition => "view-transition"
  | positionTry => "position-try"
  | unknown => "unknown"
  | ignored => "ignored"
  | custom => "custom"

/-- Whether the engine knows where rules of this type start. -/
def isLocated : RuleType → Bool
  | ignored | custom => false
  | _ => true

end RuleType

/-- The types of images. -/
inductive ImageType where
  | none
  | url
  | gradient
  | imageSet
deriving DecidableEq, Repr

/-- The label of an image. -/
def ImageType.label : ImageType → String
  | .none => "none"
  | .url => "url"
  | .gradient => "gradient"
  | .imageSet => "image-set"

/-- The parts of selectors. -/
inductive Component where
  | combinator
  | universal
  | namespaceMark
  | typeName
  | id
  | className
  | attribute
  | pseudoElement
  | nesting
  | pseudoClass
deriving DecidableEq, Repr

/-- The label of a part of a selector. -/
def Component.label : Component → String
  | .combinator => "combinator"
  | .universal => "universal"
  | .namespaceMark => "namespace"
  | .typeName => "type"
  | .id => "id"
  | .className => "class"
  | .attribute => "attribute"
  | .pseudoElement => "pseudo-element"
  | .nesting => "nesting"
  | .pseudoClass => "pseudo-class"

/-- A reported value that becomes one node.  `shown` is the value as the engine shows it, which
starts with the name of its variant; `css` is its written form, where it has one. -/
inductive Subject where
  | property (name : String)
  | function (name : String) (arguments : Nat)
  | customVariable (name : String)
  | environmentVariable (shown : String)
  | mediaQuery (shown : String) (css : Option String)
  | supportsCondition (shown : String) (css : Option String)
  | image (type : ImageType) (css : Option String)
  | selector (components : List Component) (shown : String)
  | color (shown : String) (css : Option String)
  | angle (shown : String) (css : Option String)
  | resolution (shown : String) (css : Option String)
  | time (shown : String) (css : Option String)
  | ratio (css : Option String)
  | url (target : String)
  | customIdent (name : String)
  | dashedIdent (name : String)
  | token (shown : String)
deriving DecidableEq, Repr

namespace Subject

/-- The name of the variant of a shown value: all before its first opening bracket or space. -/
def variantName (shown : String) : String :=
  String.ofList (shown.toList.takeWhile fun c => c != '(' && c != ' ' && c != '{')

/-- The kind of the node of a value. -/
def kind : Subject → Kind
  | property _ => .declaration
  | function _ _ => .function
  | customVariable _ => .customVariable
  | environmentVariable _ => .environmentVariable
  | mediaQuery _ _ => .mediaQuery
  | supportsCondition _ _ => .supportsCondition
  | image _ _ => .image
  | selector _ _ => .selector
  | color _ _ => .color
  | angle _ _ => .angle
  | resolution _ _ => .resolution
  | time _ _ => .time
  | ratio _ => .ratio
  | url _ => .url
  | customIdent _ => .customIdent
  | dashedIdent _ => .dashedIdent
  | token _ => .token

/-- The label of the node of a value.  The parts of a selector are reported from its end, and
are shown from its start. -/
def label : Subject → String
  | property name | function name _ | customVariable name | customIdent name
  | dashedIdent name => name
  | environmentVariable shown | mediaQuery shown _ | supportsCondition shown _ | color shown _
  | angle shown _ | resolution shown _ | time shown _ | token shown => variantName shown
  | image type _ => type.label
  | selector components _ => " ".intercalate (components.reverse.map Component.label)
  | ratio _ => "ratio"
  | url _ => "url"

/-- What is told of a value beside its label. -/
def detail : Subject → Option String
  | property _ | customVariable _ | environmentVariable _ | customIdent _ | dashedIdent _
  | token _ => none
  | function _ arguments => some (toString arguments)
  | mediaQuery _ css | supportsCondition _ css | image _ css | color _ css | angle _ css
  | resolution _ css | time _ css | ratio css => css
  | selector _ shown => some shown
  | url target => some target

/-- What the value looks like in the source, where it can be told. -/
def signature? : Subject → Option Signature
  | property name => some (.property name.toList)
  | function name _ => some (.call name.toList)
  | customVariable _ => some (.call ['v', 'a', 'r'])
  | environmentVariable _ => some (.call ['e', 'n', 'v'])
  | url _ => some (.call ['u', 'r', 'l'])
  | _ => none

end Subject
end StyleAtlas
