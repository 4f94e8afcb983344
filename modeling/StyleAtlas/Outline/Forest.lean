import StyleAtlas.Outline.Node

/-!
# Links between outline nodes

A list of nodes in creation order is a forest: each node names its parent, and all other links
are read off these names.

Main definitions:

- `Forest.startOf`, `Forest.depthOf`, `Forest.parentOf`, `Forest.stopOf`: fields by number.
- `Forest.under`: the children of a node, or the roots.
- `Forest.before`, `Forest.after`: the neighbours of a node among its siblings.
- `Forest.climb`, `Forest.ancestorAt`, `Forest.ancestors`: the way up.
-/

namespace StyleAtlas

/-- Nodes in creation order, linked by the numbers of their parents. -/
abbrev Forest := List Node

namespace Forest

/-- The start of a node; there is none past the last node, which counts as zero. -/
def startOf (nodes : Forest) (id : Nat) : Nat :=
  match nodes[id]? with
  | some n => n.start
  | none => 0

/-- The depth of a node; there is none past the last node, which counts as zero. -/
def depthOf (nodes : Forest) (id : Nat) : Nat :=
  match nodes[id]? with
  | some n => n.depth
  | none => 0

/-- The parent of a node. -/
def parentOf (nodes : Forest) (id : Nat) : Option Nat :=
  nodes[id]?.bind Node.parent

/-- The end of a node, where it is settled. -/
def stopOf (nodes : Forest) (id : Nat) : Option Nat :=
  nodes[id]?.bind Node.stop

/-- The numbers of the nodes that name the given parent, in ascending order: the children of a
node, or the roots. -/
def under (nodes : Forest) (parent : Option Nat) : List Nat :=
  (nodes.zipIdx.filter fun n => n.1.parent = parent).map Prod.snd

/-- The sibling just before a node. -/
def before (nodes : Forest) (id : Nat) : Option Nat :=
  ((nodes.under (nodes.parentOf id)).filter (· < id)).getLast?

/-- The sibling just after a node. -/
def after (nodes : Forest) (id : Nat) : Option Nat :=
  (nodes.under (nodes.parentOf id)).find? (id < ·)

/-- The node that is a number of parent links above a node. -/
def climb (nodes : Forest) : (steps id : Nat) → Option Nat
  | 0, id => some id
  | steps + 1, id => (nodes.parentOf id).bind (climb nodes steps)

/-- The ancestor of a node, or the node itself, at a given depth. -/
def ancestorAt (nodes : Forest) (depth id : Nat) : Option Nat :=
  if nodes.depthOf id < depth then none
  else nodes.climb (nodes.depthOf id - depth) id

/-- The first `fuel` ancestors of a node, parent first. -/
def ancestorsUpTo (nodes : Forest) : (fuel id : Nat) → List Nat
  | 0, _ => []
  | fuel + 1, id =>
      match nodes.parentOf id with
      | some parent => parent :: ancestorsUpTo nodes fuel parent
      | none => []

/-- All ancestors of a node, parent first: parents come before their children, so there are
fewer than nodes. -/
def ancestors (nodes : Forest) (id : Nat) : List Nat :=
  nodes.ancestorsUpTo nodes.length id

end Forest
end StyleAtlas
