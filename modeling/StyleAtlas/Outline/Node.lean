import StyleAtlas.Outline.Kind
import StyleAtlas.Text.Extent
import StyleAtlas.Text.Position

/-!
# Outline nodes

The nodes of an outline and the events that announce them.  A node starts out with a known start
and no end; its end is settled when a later event, or the end of the text, shows where it closed.

Main definitions:

- `Payload`: the label of a node, with the place at which it was seen, if any.
- `Node`, `Node.close`: a node, and the same node with its end settled.
- `Event`: what a walk over the engine's tree reports.
-/

namespace StyleAtlas

/-- How the place of a node became known. -/
inductive Origin where
  /-- The engine reported it. -/
  | engine
  /-- The source was searched for what the node looks like. -/
  | scanned
deriving DecidableEq, Repr

/-- The place at which a node was seen. -/
structure Location where
  position : Position
  origin : Origin
deriving DecidableEq, Repr

/-- What is known of a node when it is announced.  Only the location bears on its extent. -/
structure Payload where
  label : String
  detail : Option String
  location : Option Location
deriving DecidableEq, Repr

/-- What a walk in depth-first order reports. -/
inductive Event where
  /-- A container opens. -/
  | enter (kind : Kind) (payload : Payload)
  /-- A node without children passes. -/
  | leaf (kind : Kind) (payload : Payload)
  /-- The innermost container closes. -/
  | exit (kind : Kind)
deriving DecidableEq, Repr

/-- A node of an outline.  Nodes are numbered in the order of their creation, and `parent` is the
number of the container around the node; `depth` is the number of containers around it.  The end
`stop` is missing while it is not settled.  Numbers are natural ones; they agree with words of 32
bits for outlines of at most 2 ^ 32 nodes only, as lines and columns do for texts of less than
2 ^ 32 bytes (`Source.positions_match_offsets`). -/
structure Node where
  kind : Kind
  payload : Payload
  depth : Nat
  parent : Option Nat
  start : Nat
  stop : Option Nat
deriving DecidableEq, Repr

/-- The written form `(line:column)` of a location, with `~` in front of a scanned place. -/
def Location.render (l : Location) : String :=
  match l.origin with
  | .engine => "(" ++ l.position.render ++ ")"
  | .scanned => "(~" ++ l.position.render ++ ")"

namespace Node

/-- Whether the end of the node is settled. -/
def isResolved (n : Node) : Bool :=
  n.stop.isSome

/-- The extent of a node whose end is settled. -/
def extent? (n : Node) : Option Extent :=
  n.stop.map fun stop => ⟨n.start, stop⟩

/-- Settle the end of a node, never before its start. -/
def close (n : Node) (stop : Nat) : Node :=
  { n with stop := some (max n.start stop) }

/-- The line `Kind: label`; a function also shows the number of its arguments. -/
def describe (n : Node) : String :=
  match n.kind, n.payload.detail with
  | .function, some arguments => n.kind.name ++ ": " ++ n.payload.label ++ " " ++ arguments
  | _, _ => n.kind.name ++ ": " ++ n.payload.label

end Node
end StyleAtlas
