import StyleAtlas.Sheet.Point

/-!
# Sheet nodes

A sheet is a tree of at-rules, rules, declarations and comments, each with the span that it was
read from.

Main definitions:

- `Sheet.Content`, `Sheet.Content.describe`: what a node says.
- `Sheet.Node`: a node with its children.
- `Sheet.Node.preorder`: a node and all below it, parents first.
-/

namespace StyleAtlas
namespace Sheet

/-- What a node of a sheet says. -/
inductive Content where
  /-- The sheet itself. -/
  | root
  /-- A rule with a keyword, such as `@media screen`. -/
  | atRule (name params : List Char)
  /-- A rule with a selector. -/
  | rule (selector : List Char)
  /-- A property and its value. -/
  | declaration (property value : List Char) (important : Bool)
  /-- A remark. -/
  | comment (text : List Char)
deriving DecidableEq, Repr

/-- The description of a node in one line. -/
def Content.describe : Content → String
  | .root => "Root"
  | .atRule name params =>
      let head := "AtRule: @" ++ String.ofList name
      if params.isEmpty then head else head ++ " " ++ String.ofList params
  | .rule selector => "Rule: " ++ String.ofList selector
  | .declaration property _ important =>
      let head := "Declaration: " ++ String.ofList property
      if important then head ++ " !important" else head
  | .comment _ => "Comment"

/-- A node of a sheet: what it says, the span that it was read from, and its children. -/
inductive Node where
  | mk (content : Content) (span : Option Span) (children : List Node)
deriving Repr

namespace Node

/-- What the node says. -/
def content : Node → Content
  | mk content _ _ => content

/-- The span that the node was read from. -/
def span : Node → Option Span
  | mk _ span _ => span

/-- The nodes directly below. -/
def children : Node → List Node
  | mk _ _ children => children

mutual

/-- The node and all below it, parents before their children. -/
def preorder : Node → List Node
  | mk content span children => mk content span children :: preorderAll children

/-- The nodes of some trees one after the other, parents before their children. -/
def preorderAll : List Node → List Node
  | [] => []
  | n :: ns => preorder n ++ preorderAll ns

end

/-- Trees are walked one after the other. -/
theorem preorderAll_append (xs ys : List Node) :
    preorderAll (xs ++ ys) = preorderAll xs ++ preorderAll ys := by
  induction xs with
  | nil => rfl
  | cons x xs ih => simp [preorderAll, ih]

/-- The number of nodes of the tree. -/
def size (n : Node) : Nat :=
  n.preorder.length

end Node
end Sheet
end StyleAtlas
