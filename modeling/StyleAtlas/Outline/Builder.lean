import StyleAtlas.Outline.Backfill
import StyleAtlas.Outline.Basic

/-!
# Building outlines from events

Events come in depth-first order, and say at most where a node starts.  A new node is pending:
its end is settled once a located node at its depth or above, or the end of the text, shows
where its branch closed.  Nodes may arrive out of source order; one that starts past the place
where its branch would close stays pending, and a settled sibling that reaches past the start
of a later arrival is cut back to it.

Main definitions:

- `Builder.resolvePending`: settle the pending nodes from a depth down.
- `Builder.trim`: cut settled siblings back to a start.
- `Builder.visit`: add a node.
- `Builder.push`, `Builder.run`: feed events.
- `Builder.finish`: settle what is still pending against the end of the text.
-/

namespace StyleAtlas

/-- An outline under construction: the nodes so far, the open containers with the innermost
first, and the nodes whose ends are not settled, in creation order. -/
structure Builder where
  source : Source
  nodes : Forest
  stack : List Nat
  pending : List Nat
deriving DecidableEq

namespace Builder

/-- Nothing built yet. -/
def init (source : Source) : Builder :=
  ⟨source, [], [], []⟩

/-- The depth of the next node. -/
def depth (b : Builder) : Nat :=
  b.stack.length

/-- The innermost open container. -/
def current (b : Builder) : Option Nat :=
  b.stack.head?

/-- The number of nodes so far. -/
def nodeCount (b : Builder) : Nat :=
  b.nodes.length

/-! ## Settling ends -/

/-- The pending nodes at a depth, in creation order. -/
def pendingAt (b : Builder) (depth : Nat) : List Nat :=
  b.pending.filter fun id => b.nodes.depthOf id = depth

/-- Where the branch of a node at the outermost closed depth ends: at the least larger start of a
pending node of that depth, if it comes before the boundary.  A node that is not pending takes
the boundary itself. -/
def branchEnd (b : Builder) (depth boundary head : Nat) : Nat :=
  let heads := b.pendingAt depth
  if head ∈ heads then
    match ((heads.map b.nodes.startOf).filter (b.nodes.startOf head < ·)).min? with
    | some next => min next boundary
    | none => boundary
  else boundary

/-- The end that closing all branches from a depth down at a boundary gives to a pending node;
none if its branch starts past the boundary. -/
def endFor (b : Builder) (depth boundary id : Nat) : Option Nat :=
  let levels := b.nodes.depthOf id - depth
  match b.nodes.ancestorAt depth id with
  | none => some (Text.closingEnd b.source.chars boundary levels)
  | some head =>
      if boundary < b.nodes.startOf head then none
      else some (Text.closingEnd b.source.chars (b.branchEnd depth boundary head) levels)

/-- The end that a node gets when all branches from a depth down close at a boundary: none for
nodes further up, settled nodes, and branches that start past the boundary. -/
def settledEnd (b : Builder) (depth boundary id : Nat) : Option Nat :=
  if id ∈ b.pending ∧ depth ≤ b.nodes.depthOf id then b.endFor depth boundary id else none

/-- Close all branches from a depth down at a boundary. -/
def resolvePending (b : Builder) (depth boundary : Nat) : Builder :=
  { b with
    nodes := b.nodes.mapIdx fun id n =>
      match b.settledEnd depth boundary id with
      | some stop => n.close stop
      | none => n
    pending := b.pending.filter fun id => (b.settledEnd depth boundary id).isNone }

/-! ## Cutting siblings back -/

/-- The settled siblings that start before a place and may reach past it: the latest ones, back
to the first that ends at or before the place. -/
def reachingPast (b : Builder) (parent : Option Nat) (place : Nat) : List Nat :=
  let endsBefore id :=
    match b.nodes.stopOf id with
    | some stop => stop ≤ place
    | none => false
  ((b.nodes.under parent).reverse.takeWhile fun id => !endsBefore id).filter fun id =>
    (b.nodes.stopOf id).isSome && b.nodes.startOf id < place

/-- Cut the siblings that reach past a place back to it, with all that lies below them. -/
def trim (b : Builder) (parent : Option Nat) (place : Nat) : Builder :=
  let cut := b.reachingPast parent place
  let isBelow id :=
    match b.nodes.ancestorAt b.depth id with
    | some head => decide (head ∈ cut)
    | none => false
  { b with
    nodes := b.nodes.mapIdx fun id n =>
      match n.stop with
      | some stop => if place < stop && isBelow id then n.close place else n
      | none => n }

/-! ## Adding nodes -/

/-- The start of a node that was not located: that of the last pending node at its depth, else
of its parent, else of the last root, else zero. -/
def inheritedStart (b : Builder) : Nat :=
  match (b.pendingAt b.depth).getLast? with
  | some sibling => b.nodes.startOf sibling
  | none =>
      match b.current with
      | some parent => b.nodes.startOf parent
      | none =>
          match (b.nodes.under none).getLast? with
          | some root => b.nodes.startOf root
          | none => 0

/-- The least start that a new node may have: the start of its parent. -/
def floor (b : Builder) : Nat :=
  match b.current with
  | some parent => b.nodes.startOf parent
  | none => 0

/-- Add a node with a start, its end pending. -/
def append (b : Builder) (kind : Kind) (payload : Payload) (start : Nat) : Builder :=
  { b with
    nodes := b.nodes ++ [⟨kind, payload, b.depth, b.current, start, none⟩]
    pending := b.pending ++ [b.nodes.length] }

/-- Add a node.  A located one first closes the branches at its depth and below, and cuts back
the siblings that reach past it. -/
def visit (b : Builder) (kind : Kind) (payload : Payload) : Builder :=
  match payload.location with
  | some location =>
      let start := max (b.source.clamp location.position) b.floor
      ((b.resolvePending b.depth start).trim b.current start).append kind payload start
  | none => b.append kind payload (max b.inheritedStart b.floor)

/-! ## Events -/

/-- Open a container.  The answer holds its number. -/
def enter (b : Builder) (kind : Kind) (payload : Payload) :
    Except OutlineError (Nat × Builder) :=
  if kind.isContainer then
    .ok (b.nodeCount, { b.visit kind payload with stack := b.nodeCount :: b.stack })
  else .error (.notContainer kind)

/-- Add a node without children.  The answer holds its number. -/
def leaf (b : Builder) (kind : Kind) (payload : Payload) : Nat × Builder :=
  (b.nodeCount, b.visit kind payload)

/-- Close the innermost container, which must be of the given kind.  The answer holds its
number. -/
def exit (b : Builder) (kind : Kind) : Except OutlineError (Nat × Builder) :=
  match b.stack with
  | [] => .error (.unbalancedExit none kind)
  | top :: rest =>
      match b.nodes[top]? with
      | some n =>
          if n.kind = kind then .ok (top, { b with stack := rest })
          else .error (.unbalancedExit (some n.kind) kind)
      | none => .error (.unbalancedExit none kind)

/-- Feed one event.  The answer holds the number of the node that it made or closed. -/
def push (b : Builder) : Event → Except OutlineError (Nat × Builder)
  | .enter kind payload => b.enter kind payload
  | .leaf kind payload => .ok (b.leaf kind payload)
  | .exit kind => b.exit kind

/-- Feed events until one is refused. -/
def run (b : Builder) (events : List Event) : Except OutlineError Builder :=
  events.foldlM (fun b event => (b.push event).map Prod.snd) b

/-- Close what is still pending at the end of the text. -/
def finish (b : Builder) : Outline :=
  let done := b.resolvePending 0 b.source.size
  ⟨done.source, done.nodes⟩

end Builder

/-- The outline that a stream of events builds over a source. -/
def Outline.ofEvents (source : Source) (events : List Event) : Except OutlineError Outline :=
  ((Builder.init source).run events).map Builder.finish

end StyleAtlas
