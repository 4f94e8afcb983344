import StyleAtlas.Index.Error
import StyleAtlas.Index.Search
import StyleAtlas.Text.Source

/-!
# Range indexes

The extents of the nodes of one tree, in the order in which the nodes were added.  Each entry
names the ordinal of its parent entry; roots and children are read off these links.  A lookup
by offset searches the roots, then the children of what it found.

Main definitions:

- `RangeIndex.push`, `RangeIndex.pushRange`: add an entry, by extent or by positions.
- `RangeIndex.extentOf`, `RangeIndex.parentOf`, `RangeIndex.childrenOf`: read an entry by key.
- `RangeIndex.nodeAt`: the root around an offset, or its child around the offset.
- `RangeIndex.deepestAt`: the same descent, as far down as it goes.
-/

namespace StyleAtlas

/-- One indexed node: its key, its extent, and the ordinal of its parent entry. -/
structure IndexEntry (κ : Type) where
  key : κ
  extent : Extent
  parent : Option Nat
deriving DecidableEq, Repr

/-- The extents of the nodes of one tree, in the order in which they were added. -/
structure RangeIndex (κ : Type) where
  entries : List (IndexEntry κ)
deriving DecidableEq, Repr

namespace RangeIndex

variable {κ : Type} [DecidableEq κ]

/-- The index without entries. -/
def empty : RangeIndex κ :=
  ⟨[]⟩

/-- The number of entries. -/
def size (index : RangeIndex κ) : Nat :=
  index.entries.length

/-- Whether there are no entries. -/
def isEmpty (index : RangeIndex κ) : Bool :=
  index.entries.isEmpty

/-! ## Entries by key and by ordinal -/

/-- The ordinal of a key. -/
def indexOf (index : RangeIndex κ) (key : κ) : Option Nat :=
  index.entries.findIdx? fun entry => entry.key = key

/-- The key at an ordinal. -/
def keyAt (index : RangeIndex κ) (ordinal : Nat) : Option κ :=
  index.entries[ordinal]?.map IndexEntry.key

/-- The entry of a key. -/
def entryOf (index : RangeIndex κ) (key : κ) : Option (IndexEntry κ) :=
  index.entries.find? fun entry => entry.key = key

/-- The extent of a key. -/
def extentOf (index : RangeIndex κ) (key : κ) : Option Extent :=
  (index.entryOf key).map IndexEntry.extent

/-- The key of the parent of a key. -/
def parentOf (index : RangeIndex κ) (key : κ) : Option κ := do
  let entry ← index.entryOf key
  index.keyAt (← entry.parent)

/-- The ordinals of the entries that have the given parent link, in ascending order. -/
def under (index : RangeIndex κ) (parent : Option Nat) : List Nat :=
  (index.entries.zipIdx.filter fun entry => entry.1.parent = parent).map Prod.snd

/-- The keys of the entries without a parent, in order. -/
def roots (index : RangeIndex κ) : List κ :=
  (index.under none).filterMap index.keyAt

/-- The keys of the children of a key, in order. -/
def childrenOf (index : RangeIndex κ) (key : κ) : List κ :=
  match index.indexOf key with
  | some ordinal => (index.under (some ordinal)).filterMap index.keyAt
  | none => []

/-! ## Adding entries -/

/-- Add a node by its extent.  A parent that is not indexed makes the node a root.  The answer
holds the node's ordinal. -/
def push (index : RangeIndex κ) (key : κ) (parent : Option κ) (extent : Extent) :
    Except IndexError (Nat × RangeIndex κ) :=
  match index.indexOf key with
  | some ordinal => .error (.duplicateKey ordinal)
  | none =>
      .ok (index.size, ⟨index.entries ++ [⟨key, extent, parent.bind index.indexOf⟩]⟩)

/-- Add a node by the positions of its ends in the source. -/
def pushRange (index : RangeIndex κ) (source : Source) (key : κ) (parent : Option κ)
    (range : PositionRange) : Except IndexError (Nat × RangeIndex κ) :=
  match source.extentOf range with
  | .error cause => .error (.text cause)
  | .ok extent => index.push key parent extent

/-! ## Lookup by offset -/

/-- The extent at an ordinal; there is none past the last entry, which counts as empty. -/
def extentAt (index : RangeIndex κ) (ordinal : Nat) : Extent :=
  match index.entries[ordinal]? with
  | some entry => entry.extent
  | none => ⟨0, 0⟩

/-- One of the entries under a parent link whose extent contains the offset. -/
def findUnder (index : RangeIndex κ) (parent : Option Nat) (offset : Nat) : Option Nat :=
  Index.search index.extentAt (index.under parent) offset

/-- Go down from an entry to a child around the offset, as often as there is one; `fuel` bounds
the number of steps. -/
def descend (index : RangeIndex κ) (offset : Nat) : (fuel ordinal : Nat) → Nat
  | 0, ordinal => ordinal
  | fuel + 1, ordinal =>
      match index.findUnder (some ordinal) offset with
      | some child => index.descend offset fuel child
      | none => ordinal

/-- The key of the root around an offset, or of its child around the offset where there is
one. -/
def nodeAt (index : RangeIndex κ) (offset : Nat) : Option κ := do
  let root ← index.findUnder none offset
  index.keyAt (index.descend offset 1 root)

/-- The key of the deepest node around an offset: children come after their parents, so the
number of entries bounds the descent. -/
def deepestAt (index : RangeIndex κ) (offset : Nat) : Option κ := do
  let root ← index.findUnder none offset
  index.keyAt (index.descend offset index.size root)

end RangeIndex
end StyleAtlas
