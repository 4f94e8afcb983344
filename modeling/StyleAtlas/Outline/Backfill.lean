import StyleAtlas.Text.Blank
import StyleAtlas.Text.Measure

/-!
# Ends inferred by walking back

Only starts are reported, so ends are inferred.  Where a branch of nested nodes closes at a
boundary, its outermost node ends at the boundary itself, and each node further in ends at the
last visible character before the closing delimiter of the node around it.

Main definitions:

- `lastVisible?`: the last character before an offset that is not blank.
- `walkBack`: from the end of a node to the end of its last child.
- `closingEnd`: the end of a node a number of levels below the outermost one.
-/

namespace StyleAtlas
namespace Text

/-- The offset and size of the last character that is not blank and ends at or before the given
offset. -/
def lastVisible? : List Char → (limit : Nat) → Option (Nat × Nat)
  | [], _ => none
  | c :: cs, limit =>
      if limit < c.utf8Size then none
      else
        match lastVisible? cs (limit - c.utf8Size) with
        | some found => some (c.utf8Size + found.1, found.2)
        | none => if isBlank c then none else some (0, c.utf8Size)

/-- Step over the last visible character before an offset, which closes a node, to just past the
visible character before it; to zero where there is none. -/
def walkBack (cs : List Char) (offset : Nat) : Nat :=
  match lastVisible? cs offset with
  | none => 0
  | some delimiter =>
      match lastVisible? cs delimiter.1 with
      | none => 0
      | some found => found.1 + found.2

/-- The end of a node that lies `levels` levels below the outermost node closed at a boundary. -/
def closingEnd (cs : List Char) (boundary : Nat) : (levels : Nat) → Nat
  | 0 => boundary
  | levels + 1 => walkBack cs (closingEnd cs boundary levels)

end Text
end StyleAtlas
