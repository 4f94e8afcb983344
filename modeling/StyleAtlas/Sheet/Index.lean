import StyleAtlas.Index.Basic
import StyleAtlas.Sheet.Error
import StyleAtlas.Sheet.Node

/-!
# Indexes of sheets

The nodes of a sheet, numbered in pre-order, and the range index of those that carry a span.  A
node without a span is left out of the range index, and what lies below it hangs under the
nearest node around it that has one.

Main definitions:

- `Sheet.Listing`, `Sheet.Node.listings`: the nodes with their links, in pre-order.
- `SheetIndex`, `SheetIndex.build`: a sheet with its range index.
- `SheetIndex.nodeAt`, `SheetIndex.deepestAt`: lookup by offset.
-/

namespace StyleAtlas
namespace Sheet

/-- A node, the number of its parent, and the number of the nearest node around it that has a
span. -/
structure Listing where
  node : Node
  parent : Option Nat
  anchor : Option Nat

mutual

/-- The node and all below it in pre-order, numbered from `ordinal` on. -/
def Node.listings (ordinal : Nat) (parent anchor : Option Nat) : Node → List Listing
  | .mk content span children =>
      ⟨.mk content span children, parent, anchor⟩ ::
        listAll (ordinal + 1) (some ordinal) (if span.isSome then some ordinal else anchor) children

/-- The nodes of some trees one after the other in pre-order, numbered from `ordinal` on. -/
def listAll (ordinal : Nat) (parent anchor : Option Nat) : List Node → List Listing
  | [] => []
  | n :: ns =>
      let first := Node.listings ordinal parent anchor n
      first ++ listAll (ordinal + first.length) parent anchor ns

end

/-- Add a numbered node to an index, if it has a span. -/
def indexListing (source : Source) (index : RangeIndex Nat) (numbered : Listing × Nat) :
    Except IndexError (RangeIndex Nat) :=
  match numbered.1.node.span with
  | none => .ok index
  | some span =>
      (index.push numbered.2 numbered.1.anchor (span.extent source)).map Prod.snd

end Sheet

/-- A sheet over its source: its nodes in pre-order, and the range index of those with a span,
keyed by their numbers. -/
structure SheetIndex where
  source : Source
  listings : List Sheet.Listing
  index : RangeIndex Nat

namespace SheetIndex

/-- Index a sheet over a source. -/
def build (source : Source) (root : Sheet.Node) : Except SheetError SheetIndex :=
  let listings := root.listings 0 none none
  match listings.zipIdx.foldlM (Sheet.indexListing source) RangeIndex.empty with
  | .ok index => .ok ⟨source, listings, index⟩
  | .error cause => .error (.index cause)

/-- The number of nodes, with or without a span. -/
def size (s : SheetIndex) : Nat :=
  s.listings.length

/-- Whether there are no nodes. -/
def isEmpty (s : SheetIndex) : Bool :=
  s.listings.isEmpty

/-- The node with a number. -/
def node? (s : SheetIndex) (ordinal : Nat) : Option Sheet.Node :=
  s.listings[ordinal]?.map Sheet.Listing.node

/-- The extent of a node that has a span. -/
def extentOf (s : SheetIndex) (ordinal : Nat) : Option Extent :=
  s.index.extentOf ordinal

/-- The text of a node that has a span. -/
def textOf (s : SheetIndex) (ordinal : Nat) : Option (List Char) :=
  (s.extentOf ordinal).bind fun x => (s.source.sliceOffsets x).toOption

/-- The node around an offset, at most one level below the top. -/
def nodeAt (s : SheetIndex) (offset : Nat) : Option Nat :=
  s.index.nodeAt offset

/-- The deepest node around an offset. -/
def deepestAt (s : SheetIndex) (offset : Nat) : Option Nat :=
  s.index.deepestAt offset

/-- The node around the place nearest to a position, at most one level below the top. -/
def nodeAtPosition (s : SheetIndex) (p : Position) : Option Nat :=
  s.nodeAt (s.source.clamp p)

end SheetIndex
end StyleAtlas
