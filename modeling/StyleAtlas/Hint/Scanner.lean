import StyleAtlas.Hint.Occurrence

/-!
# The hint scanner

A scanner follows a walk over the rules of a stylesheet and says where the next declaration or
call stands.  It keeps a stack of windows, one for each rule that the walk is in, and a cursor
that moves forward over what was found, so that repeated signatures are found in source order.

Main definitions:

- `Scanner.openBlock`, `Scanner.inheritBlock`, `Scanner.closeBlock`: follow the walk.
- `Scanner.find`: the next occurrence of a signature.
- `Scanner.sourceOrder`: the interleaving of normal and important declarations in the source.
-/

namespace StyleAtlas

/-- The windows of the open rules, innermost first, and how far the search has come. -/
structure Scanner where
  windows : List Window
  cursor : Nat
deriving DecidableEq, Repr

namespace Scanner

/-- No rule is open. -/
def init : Scanner :=
  ⟨[], 0⟩

/-- The innermost window; the whole source where no rule is open. -/
def window (s : Scanner) (source : Source) : Window :=
  s.windows.headD ⟨0, source.size⟩

/-- Enter a rule that starts at an offset.  Its window ends with it, and with the rule around
it. -/
def openBlock (s : Scanner) (source : Source) (start : Nat) : Scanner :=
  let stop := Hint.blockEnd source start
  let ceiling :=
    match s.windows with
    | outer :: _ => min stop outer.ceiling
    | [] => stop
  ⟨⟨start, ceiling⟩ :: s.windows, start⟩

/-- Enter a rule whose place is unknown: it has the window of the rule around it. -/
def inheritBlock (s : Scanner) (source : Source) : Scanner :=
  { s with windows := s.window source :: s.windows }

/-- Leave a rule. -/
def closeBlock (s : Scanner) : Scanner :=
  { s with windows := s.windows.tail }

/-! ## Search -/

/-- The occurrence that the next search for a signature finds: the first from the cursor on, or
else the first in the window. -/
def next? (s : Scanner) (source : Source) (signature : Signature) : Option Occurrence :=
  let all := Hint.occurrences source (s.window source) signature
  match all.find? fun m => s.cursor ≤ m.start with
  | some m => some m
  | none => all.head?

/-- Search for a signature, and move the cursor past what was found, never back. -/
def find (s : Scanner) (source : Source) (signature : Signature) : Option Nat × Scanner :=
  match s.next? source signature with
  | some m => (some m.start, { s with cursor := max s.cursor m.stop })
  | none => (none, s)

/-! ## Source order of declarations -/

/-- One declaration of a block: in which of its two lists it stands, and where in that list. -/
structure Slot where
  important : Bool
  index : Nat
deriving DecidableEq, Repr

/-- The first occurrence whose value is marked important or not, as asked, and the cursor after
it; without one the cursor is past the last occurrence. -/
def pick (source : Source) (important : Bool) :
    List Occurrence → (cursor : Nat) → Option Nat × Nat
  | [], cursor => (none, cursor)
  | m :: ms, _ =>
      if Hint.isImportant source m.stop = important then (some m.start, m.stop)
      else pick source important ms m.stop

/-- Where the properties of a list stand in a window, each searched for after the one before. -/
def startsInOrder (source : Source) (window : Window) (important : Bool) :
    List (List Char) → (cursor : Nat) → List (Option Nat)
  | [], _ => []
  | name :: names, cursor =>
      let ahead := (Hint.occurrences source window (.property name)).filter (cursor ≤ ·.start)
      let found := pick source important ahead cursor
      found.1 :: startsInOrder source window important names found.2

/-- Sort keys of declarations: their starts, or the key before where the start is unknown. -/
def sortKeys : List (Option Nat) → (previous : Nat) → List Nat
  | [], _ => []
  | start :: starts, previous =>
      start.getD previous :: sortKeys starts (start.getD previous)

/-- The declarations of one list with their sort keys. -/
def keyedSlots (important : Bool) (keys : List Nat) : List (Nat × Slot) :=
  keys.zipIdx.map fun key => (key.1, ⟨important, key.2⟩)

/-- The order in which the normal and the important declarations of a block stand in the source.
A declaration that is not found follows the one before it in its list, and of two declarations
at the same place the normal one comes first. -/
def sourceOrder (s : Scanner) (source : Source) (normal important : List (List Char)) :
    List Slot :=
  let w := s.window source
  let cursor := max s.cursor w.floor
  let slots flag names :=
    keyedSlots flag (sortKeys (startsInOrder source w flag names cursor) 0)
  let all := slots false normal ++ slots true important
  (all.mergeSort fun a b => a.1 ≤ b.1).map Prod.snd

end Scanner
end StyleAtlas
