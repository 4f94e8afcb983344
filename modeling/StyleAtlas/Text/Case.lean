/-!
# Letter case of ASCII letters

Names of properties, functions and flags are compared without regard to the case of the ASCII
letters; every other character is compared as it stands.
-/

namespace StyleAtlas
namespace Text

/-- A text with its ASCII capital letters made small. -/
def lower (cs : List Char) : List Char :=
  cs.map Char.toLower

/-- Equality up to the case of ASCII letters. -/
def equalsIgnoringCase (cs ds : List Char) : Bool :=
  lower cs == lower ds

/-- Whether `part` occurs in the text as a run of consecutive characters. -/
def containsRun (part : List Char) : List Char → Bool
  | [] => part.isEmpty
  | c :: cs => part.isPrefixOf (c :: cs) || containsRun part cs

end Text
end StyleAtlas
