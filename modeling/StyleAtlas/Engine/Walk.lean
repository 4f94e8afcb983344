import StyleAtlas.Engine.Subject
import StyleAtlas.Hint.Scanner
import StyleAtlas.Outline.Node

/-!
# The walk over the engine's reports

The engine reports a stylesheet as a forest of callbacks.  The walk turns them into the events
from which an outline is built.  Rules carry the engine's own place; declarations and calls are
searched for in the source, if asked; all other nodes have no place of their own.

A walk of one callback is a function of the scanner, so the declarations of a block can be put in
source order before they are walked.

Main definitions:

- `Callback`: what the engine reports.
- `Walk`, `Walk.sequence`: events made while a scanner is threaded through.
- `Callback.walk`: the walk of a callback.
-/

namespace StyleAtlas

/-- A place as the engine counts: lines from zero, columns from one in UTF-16 units. -/
structure Place where
  line : Nat
  column : Nat
deriving DecidableEq, Repr

/-- A report of the engine, with the reports made on the parts of its value. -/
inductive Callback where
  /-- A rule, with its place where it has one. -/
  | rule (type : RuleType) (place : Option Place) (children : List Callback)
  /-- The declarations of a rule, in two lists. -/
  | block (important normal : List Callback)
  /-- A value that is no node itself. -/
  | value (children : List Callback)
  /-- A value that becomes a node. -/
  | item (subject : Subject) (children : List Callback)
deriving Repr

/-- The source that a walk refers to, and whether it is searched for signatures. -/
structure WalkContext where
  source : Source
  scanning : Bool

/-- Events made while a scanner is threaded through. -/
abbrev Walk := Scanner → List Event × Scanner

namespace Walk

/-- Walks one after the other. -/
def sequence : List Walk → Walk
  | [] => fun s => ([], s)
  | w :: ws => fun s =>
      let first := w s
      let rest := sequence ws first.2
      (first.1 ++ rest.1, rest.2)

end Walk

namespace WalkContext

/-- The position of a place of the engine, if its line exists. -/
def position? (ctx : WalkContext) (place : Place) : Option Position :=
  match ctx.source.byteColumn place.line (place.column - 1) with
  | .ok column => some ⟨place.line, column⟩
  | .error _ => none

/-- Search for a signature, if the source is searched at all. -/
def scan (ctx : WalkContext) (signature : Option Signature) (s : Scanner) :
    Option Location × Scanner :=
  match signature with
  | none => (none, s)
  | some signature =>
      if ctx.scanning then
        let found := s.find ctx.source signature
        let location := found.1.bind fun offset =>
          (ctx.source.positionOf offset).toOption.map fun p => ⟨p, .scanned⟩
        (location, found.2)
      else (none, s)

/-- The walk of a rule around the walk of its parts.  Declarations that follow a nested rule
belong to the rule around them, and make no node for themselves. -/
def walkRule (ctx : WalkContext) (type : RuleType) (place : Option Place) (inner : Walk) : Walk :=
  fun s =>
    if type = .nestedDeclarations then inner s
    else
      let position := (if type.isLocated then place else none).bind ctx.position?
      let start := position.bind fun p => (ctx.source.offsetOf p).toOption
      let opened :=
        match start with
        | some offset => s.openBlock ctx.source offset
        | none => s.inheritBlock ctx.source
      let location := position.map fun p => ⟨p, .engine⟩
      let parts := inner opened
      (.enter .rule ⟨type.label, none, location⟩ :: parts.1 ++ [.exit .rule],
        parts.2.closeBlock)

/-- The walk of a node around the walk of its parts, which only containers have. -/
def walkItem (ctx : WalkContext) (subject : Subject) (inner : Walk) : Walk :=
  fun s =>
    let found := ctx.scan subject.signature? s
    let payload : Payload := ⟨subject.label, subject.detail, found.1⟩
    if subject.kind.isContainer then
      let parts := inner found.2
      (.enter subject.kind payload :: parts.1 ++ [.exit subject.kind], parts.2)
    else ([.leaf subject.kind payload], found.2)

/-- The walk of a block of declarations with their names: the important ones first, or all in
source order where the source is searched. -/
def walkBlock (ctx : WalkContext) (important normal : List (List Char × Walk)) : Walk :=
  fun s =>
    if ctx.scanning && !important.isEmpty then
      let order := s.sourceOrder ctx.source (normal.map Prod.fst) (important.map Prod.fst)
      let pick (slot : Scanner.Slot) : Option Walk :=
        (if slot.important then important else normal)[slot.index]?.map Prod.snd
      Walk.sequence (order.filterMap pick) s
    else Walk.sequence ((important ++ normal).map Prod.snd) s

end WalkContext

namespace Callback

/-- The name by which a declaration is searched for. -/
def declaredName : Callback → List Char
  | item (.property name) _ => name.toList
  | _ => []

mutual

/-- The walk of a callback. -/
def walk (ctx : WalkContext) : Callback → Walk
  | rule type place children => ctx.walkRule type place (Walk.sequence (walkEach ctx children))
  | block important normal =>
      ctx.walkBlock ((important.map declaredName).zip (walkEach ctx important))
        ((normal.map declaredName).zip (walkEach ctx normal))
  | value children => Walk.sequence (walkEach ctx children)
  | item subject children => ctx.walkItem subject (Walk.sequence (walkEach ctx children))

/-- The walks of some callbacks. -/
def walkEach (ctx : WalkContext) : List Callback → List Walk
  | [] => []
  | c :: cs => walk ctx c :: walkEach ctx cs

end

/-- The events of a forest of callbacks. -/
def events (ctx : WalkContext) (callbacks : List Callback) : List Event :=
  (Walk.sequence (walkEach ctx callbacks) Scanner.init).1

end Callback
end StyleAtlas
