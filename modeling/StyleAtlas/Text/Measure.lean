/-!
# Byte measure of character lists

A text is a list of characters, and its byte offsets are the sums of the UTF-8 sizes of its
characters.  This module measures texts in bytes and in UTF-16 units, tells which byte counts
fall between two characters, and cuts a text at a byte count.

Main definitions:

- `byteSize`: the number of bytes of a text.
- `isBoundary`: whether a byte count falls between two characters.
- `floorBoundary`: the greatest boundary that is at most a byte count.
- `splitAt?`, `slice?`: cuts that are refused off a boundary.
- `charsFrom`: what remains after a byte count, rounded up to a boundary.
- `unitsToBytes`: the byte count of the shortest initial segment with enough UTF-16 units.
-/

namespace StyleAtlas
namespace Text

/-! ## Sizes -/

/-- The number of bytes of a text. -/
def byteSize : List Char → Nat
  | [] => 0
  | c :: cs => c.utf8Size + byteSize cs

@[simp]
theorem byteSize_nil : byteSize [] = 0 :=
  rfl

/-- The bytes of a text are those of its characters. -/
@[simp]
theorem byteSize_cons (c : Char) (cs : List Char) :
    byteSize (c :: cs) = c.utf8Size + byteSize cs :=
  rfl

/-- The bytes of two texts add up. -/
@[simp]
theorem byteSize_append (cs ds : List Char) :
    byteSize (cs ++ ds) = byteSize cs + byteSize ds := by
  induction cs with
  | nil => simp
  | cons c cs ih => simp [ih, Nat.add_assoc]

/-- The number of UTF-16 units of a character: two outside the basic plane. -/
def unitSize (c : Char) : Nat :=
  if c.toNat < 0x10000 then 1 else 2

/-- The number of UTF-16 units of a text. -/
def unitCount : List Char → Nat
  | [] => 0
  | c :: cs => unitSize c + unitCount cs

/-! ## Boundaries -/

/-- Whether the byte count `n` falls between two characters of the text, or at one of its ends. -/
def isBoundary : List Char → Nat → Bool
  | [], n => n == 0
  | c :: cs, n => n == 0 || (c.utf8Size ≤ n && isBoundary cs (n - c.utf8Size))

/-- The greatest boundary of the text that is at most `n`. -/
def floorBoundary : List Char → Nat → Nat
  | [], _ => 0
  | c :: cs, n =>
      if n < c.utf8Size then 0 else c.utf8Size + floorBoundary cs (n - c.utf8Size)

/-- The byte count of the shortest initial segment that has at least `u` UTF-16 units, or of
the whole text when there is none. -/
def unitsToBytes : List Char → Nat → Nat
  | [], _ => 0
  | c :: cs, u =>
      if u = 0 then 0 else c.utf8Size + unitsToBytes cs (u - unitSize c)

/-! ## Cuts -/

/-- Cut a text after `n` bytes; refused when `n` is no boundary. -/
def splitAt? : List Char → Nat → Option (List Char × List Char)
  | [], n => if n = 0 then some ([], []) else none
  | c :: cs, n =>
      if n = 0 then some ([], c :: cs)
      else if n < c.utf8Size then none
      else (splitAt? cs (n - c.utf8Size)).map fun cut => (c :: cut.1, cut.2)

/-- The part of a text between two byte counts; refused when one of them is no boundary or they
are reversed. -/
def slice? (cs : List Char) (start stop : Nat) : Option (List Char) :=
  if stop < start then none
  else do
    let (_, rest) ← splitAt? cs start
    let (part, _) ← splitAt? rest (stop - start)
    some part

/-- What remains of a text after `n` bytes; a character cut by `n` is dropped whole. -/
def charsFrom : List Char → Nat → List Char
  | [], _ => []
  | c :: cs, n => if n = 0 then c :: cs else charsFrom cs (n - c.utf8Size)

end Text
end StyleAtlas
