import StyleAtlas.Index.Basic
import StyleAtlas.Outline.Error
import StyleAtlas.Outline.Forest
import StyleAtlas.Text.Source

/-!
# Outlines

The finished tree of a stylesheet: nodes in creation order, which is also pre-order, over the
source that their extents refer to.

Main definitions:

- `Outline.extentOf`, `Outline.rangeOf`, `Outline.textOf`: where a node lies, and its text.
- `Outline.index`: the range index of the nodes, keyed by their numbers.
- `Outline.dump`: the outline written with one node a line.
-/

namespace StyleAtlas

/-- The tree of a stylesheet over its source. -/
structure Outline where
  source : Source
  nodes : Forest
deriving DecidableEq

namespace Outline

/-- The number of nodes. -/
def size (o : Outline) : Nat :=
  o.nodes.length

/-- Whether there are no nodes. -/
def isEmpty (o : Outline) : Bool :=
  o.nodes.isEmpty

/-- The node with a number. -/
def node? (o : Outline) (id : Nat) : Option Node :=
  o.nodes[id]?

/-- The numbers of the nodes without a parent, in order. -/
def roots (o : Outline) : List Nat :=
  o.nodes.under none

/-- The numbers of the children of a node, in order. -/
def childrenOf (o : Outline) (id : Nat) : List Nat :=
  o.nodes.under (some id)

/-- The numbers of the nodes around a node, parent first. -/
def ancestorsOf (o : Outline) (id : Nat) : List Nat :=
  o.nodes.ancestors id

/-- The extent of a node whose end is settled. -/
def extentOf (o : Outline) (id : Nat) : Option Extent :=
  (o.node? id).bind Node.extent?

/-- The extent of a settled node in lines and columns. -/
def rangeOf (o : Outline) (id : Nat) : Option PositionRange :=
  (o.extentOf id).bind fun x => (o.source.rangeOf x).toOption

/-- The text of a settled node. -/
def textOf (o : Outline) (id : Nat) : Option (List Char) :=
  (o.extentOf id).bind fun x => (o.source.sliceOffsets x).toOption

/-! ## Index -/

/-- Add a node to an index, if its end is settled. -/
def indexNode (index : RangeIndex Nat) (numbered : Node × Nat) :
    Except IndexError (RangeIndex Nat) :=
  match numbered.1.extent? with
  | none => .ok index
  | some x => (index.push numbered.2 numbered.1.parent x).map Prod.snd

/-- The range index of all settled nodes. -/
def index (o : Outline) : Except IndexError (RangeIndex Nat) :=
  o.nodes.zipIdx.foldlM indexNode RangeIndex.empty

/-! ## Written form -/

/-- The line of one node: indented by its depth, with its description, the place at which it was
seen, and its extent. -/
def dumpNode (source : Source) (n : Node) : String :=
  let indent := String.ofList (List.replicate (2 * n.depth) ' ')
  let place :=
    match n.payload.location with
    | some l => " " ++ l.render
    | none => ""
  let range :=
    match n.extent?.bind fun x => (source.rangeOf x).toOption with
    | some r => " [" ++ r.render ++ "]"
    | none => ""
  indent ++ n.describe ++ place ++ range ++ "\n"

/-- The outline written with one node a line. -/
def dump (o : Outline) : String :=
  String.join (o.nodes.map (dumpNode o.source))

end Outline
end StyleAtlas
