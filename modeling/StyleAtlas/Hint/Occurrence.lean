import StyleAtlas.Hint.Block

/-!
# Occurrences of signatures

Declarations and function-like values are recognised in the source by their signature: a property
name with a colon after it, or a function name with an opening parenthesis after it.  Strings and
comments are skipped, and a property counts only directly inside the block of its window.

Main definitions:

- `Signature`: what is looked for.
- `Window`: the part of the source that is searched.
- `Occurrence`, `Hint.occurrences`: all places of a window at which a signature stands, in order.
-/

namespace StyleAtlas

/-- What the start of a node looks like. -/
inductive Signature where
  /-- A property name, perhaps behind a vendor mark, and a colon. -/
  | property (name : List Char)
  /-- A function name and, directly after it, an opening parenthesis. -/
  | call (name : List Char)
deriving DecidableEq, Repr

/-- The part of a source in which nodes of one block are looked for. -/
structure Window where
  floor : Nat
  ceiling : Nat
deriving DecidableEq, Repr

/-- A place at which a signature stands, and the offset just past it. -/
structure Occurrence where
  start : Nat
  stop : Nat
deriving DecidableEq, Repr

namespace Hint

/-! ## Names -/

/-- The characters of names: ASCII letters and digits, hyphen, underscore, and all characters
outside ASCII. -/
def isNameChar (c : Char) : Bool :=
  c.isAlphanum || c == '-' || c == '_' || 0x80 ≤ c.toNat

/-- The name character that a token stands for. -/
def nameChar? : Token → Option Char
  | .char c => if isNameChar c then some c else none
  | _ => none

/-- The name at the front of the tokens, and the tokens after it. -/
def spanName : List Placed → List Char × List Placed
  | [] => ([], [])
  | t :: ts =>
      match nameChar? t.token with
      | some c => (c :: (spanName ts).1, (spanName ts).2)
      | none => ([], t :: ts)

/-- Whether the byte before an offset belongs to a name character. -/
def nameEndsAt : List Char → (offset : Nat) → Bool
  | [], _ => false
  | c :: cs, offset =>
      if offset = 0 then false
      else if offset ≤ c.utf8Size then isNameChar c
      else nameEndsAt cs (offset - c.utf8Size)

/-- A name without its vendor mark: one hyphen, a word, and a second hyphen. -/
def withoutVendor? : List Char → Option (List Char)
  | '-' :: '-' :: _ => none
  | '-' :: rest =>
      match rest.dropWhile (· != '-') with
      | _ :: bare => some bare
      | [] => none
  | _ => none

/-- Whether a written name is that of a property, itself or behind a vendor mark. -/
def namesProperty (written name : List Char) : Bool :=
  Text.equalsIgnoringCase written name ||
    match withoutVendor? written with
    | some bare => Text.equalsIgnoringCase bare name
    | none => false

/-! ## Matching -/

/-- Whether a token may stand between a property name and its colon. -/
def isTrivia : Token → Bool
  | .char c => Text.isPlainBlank c
  | .comment _ _ => true
  | .quoted _ _ => false

/-- The offset past a character, where that character is the first token. -/
def past? (c : Char) : List Placed → Option Nat
  | t :: _ => if t.token = .char c then some (t.offset + 1) else none
  | [] => none

/-- The end of a signature whose name was read at a brace depth, before the tokens `rest`. -/
def matchEnd? (signature : Signature) (depth : Nat) (written : List Char)
    (rest : List Placed) : Option Nat :=
  match signature with
  | .property name =>
      if depth = 1 && namesProperty written name then
        past? ':' (rest.dropWhile fun t => isTrivia t.token)
      else none
  | .call name => if Text.equalsIgnoringCase written name then past? '(' rest else none

/-- The brace depth after a character. -/
def depthAfter (depth : Nat) (c : Char) : Nat :=
  if c = '{' then depth + 1 else if c = '}' then depth - 1 else depth

/-- The occurrences of a signature among tokens that start before a ceiling.  `inName` tells
whether the tokens go on a name, inside which no name starts. -/
def occurrencesFrom (signature : Signature) (ceiling : Nat) :
    (inName : Bool) → (depth : Nat) → List Placed → List Occurrence
  | _, _, [] => []
  | inName, depth, t :: ts =>
      if ceiling ≤ t.offset then []
      else
        match t.token with
        | .char c =>
            let rest := occurrencesFrom signature ceiling (isNameChar c) (depthAfter depth c) ts
            if isNameChar c && !inName then
              let name := spanName (t :: ts)
              match matchEnd? signature depth name.1 name.2 with
              | some stop => ⟨t.offset, stop⟩ :: rest
              | none => rest
            else rest
        | _ => occurrencesFrom signature ceiling false depth ts

/-- All occurrences of a signature in a window, in order. -/
def occurrences (source : Source) (window : Window) (signature : Signature) : List Occurrence :=
  occurrencesFrom signature window.ceiling (nameEndsAt source.chars window.floor) 0
    (source.tokensFrom .singleLine window.floor)

end Hint
end StyleAtlas
