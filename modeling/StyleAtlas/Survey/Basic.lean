import StyleAtlas.Engine.Analysis
import StyleAtlas.Sheet.Index
import StyleAtlas.Sheet.Parser
import StyleAtlas.Survey.Projection

/-!
# Surveys

A survey holds both trees of one stylesheet: the outline of the engine's report, and the sheet
that was read from the same source.  Nodes are looked up by position in either tree, and carried
from one to the other.

Main definitions:

- `SurveyError`: which of the two trees is missing, and why.
- `Survey`, `Survey.run`: both trees of a stylesheet.
- `Survey.nodeAt`, `Survey.deepestAt`: lookup by position.
- `Survey.toSheet`, `Survey.toOutline`: projection between the trees.
-/

namespace StyleAtlas

/-- Which of the two trees is missing, and why. -/
inductive SurveyError where
  | outline (cause : OutlineError)
  | sheet (cause : SheetError)
deriving DecidableEq, Repr

/-- The wording of a survey error. -/
def SurveyError.message : SurveyError → String
  | .outline cause => "Engine tree: " ++ cause.message
  | .sheet cause => "Foreign tree: " ++ cause.message

/-- What a survey does: whether it searches the source for signatures, and whether it reads the
sheet. -/
structure SurveyOptions where
  scanning : Bool
  reading : Bool
deriving DecidableEq, Repr

/-- Both trees of one stylesheet; the sheet only where it was asked for. -/
structure Survey where
  analysis : Analysis
  sheet : Option SheetIndex

/-- The two trees of a survey. -/
inductive Side where
  | outline
  | sheet
deriving DecidableEq, Repr

/-- A node of either tree, with its number there. -/
inductive NodeRef where
  | outline (id : Nat) (node : Node)
  | sheet (ordinal : Nat) (node : Sheet.Node)
deriving Repr

namespace NodeRef

/-- The tree of a node. -/
def side : NodeRef → Side
  | outline _ _ => .outline
  | sheet _ _ => .sheet

/-- The number of a node in its tree. -/
def number : NodeRef → Nat
  | outline id _ => id
  | sheet ordinal _ => ordinal

/-- The description of a node in one line. -/
def describe : NodeRef → String
  | outline _ node => node.describe
  | sheet _ node => node.content.describe

end NodeRef

namespace Survey

/-- Read and index the sheet of a source. -/
def readSheet (source : Source) : Except SheetError SheetIndex := do
  SheetIndex.build source (← Sheet.parse source.chars)

/-- Build both trees of a stylesheet.  The outline comes first, so its error is the one that is
told. -/
def run (source : Source) (options : SurveyOptions) (report : Report) :
    Except SurveyError Survey := do
  let analysis ← (Analysis.run source options.scanning report).mapError .outline
  if options.reading then
    let sheet ← (readSheet source).mapError .sheet
    return ⟨analysis, some sheet⟩
  else return ⟨analysis, none⟩

/-- The source of a survey. -/
def source (v : Survey) : Source :=
  v.analysis.source

/-! ## Nodes by number -/

/-- The node of the outline with a number. -/
def outlineNode? (v : Survey) (id : Nat) : Option NodeRef :=
  (v.analysis.outline.node? id).map (.outline id)

/-- The node of the sheet with a number. -/
def sheetNode? (v : Survey) (ordinal : Nat) : Option NodeRef := do
  let sheet ← v.sheet
  (sheet.node? ordinal).map (.sheet ordinal)

/-- The extent of a node of the outline. -/
def outlineExtent (v : Survey) (id : Nat) : Option Extent :=
  v.analysis.index.extentOf id

/-- The extent of a node of the sheet. -/
def sheetExtent (v : Survey) (ordinal : Nat) : Option Extent :=
  v.sheet.bind fun sheet => sheet.extentOf ordinal

/-! ## Nodes by position -/

/-- The node of a tree around the place nearest to a position, at most one level below the
top. -/
def nodeAt (v : Survey) (side : Side) (p : Position) : Option NodeRef :=
  let offset := v.source.clamp p
  match side with
  | .outline => (v.analysis.index.nodeAt offset).bind v.outlineNode?
  | .sheet => (v.sheet.bind fun sheet => sheet.nodeAt offset).bind v.sheetNode?

/-- The deepest node of a tree around the place nearest to a position. -/
def deepestAt (v : Survey) (side : Side) (p : Position) : Option NodeRef :=
  let offset := v.source.clamp p
  match side with
  | .outline => (v.analysis.index.deepestAt offset).bind v.outlineNode?
  | .sheet => (v.sheet.bind fun sheet => sheet.deepestAt offset).bind v.sheetNode?

/-! ## Projection -/

/-- The node of the sheet that a node of the outline is carried to. -/
def toSheet (v : Survey) (id : Nat) : Option Nat := do
  let sheet ← v.sheet
  sheet.index.project (← v.outlineExtent id)

/-- The node of the outline that a node of the sheet is carried to. -/
def toOutline (v : Survey) (ordinal : Nat) : Option Nat := do
  v.analysis.index.project (← v.sheetExtent ordinal)

end Survey
end StyleAtlas
