import StyleAtlas.Engine.Walk
import StyleAtlas.Outline.Builder

/-!
# Analyses

What the engine's report on a stylesheet gives: its outline, the range index of the outline, and
the stylesheet as the engine prints it.

Main definitions:

- `Report`: the outcome of the engine.
- `Analysis`, `Analysis.run`: the outline of a stylesheet with its index.
-/

namespace StyleAtlas

/-- The outcome of the engine on a stylesheet. -/
inductive Report where
  /-- The stylesheet was refused, at a place if one is known. -/
  | refused (reason : String) (place : Option Place)
  /-- The stylesheet was read, and is printed as given. -/
  | accepted (callbacks : List Callback) (printed : String)
deriving Repr

/-- The outline of a stylesheet, its range index, and the printed stylesheet. -/
structure Analysis where
  outline : Outline
  index : RangeIndex Nat
  printed : String

namespace Analysis

/-- The source of an analysis. -/
def source (a : Analysis) : Source :=
  a.outline.source

/-- Build and index the outline of a stylesheet from the engine's report. -/
def run (source : Source) (scanning : Bool) : Report → Except OutlineError Analysis
  | .refused reason none => .error (.parse reason 0 0)
  | .refused reason (some place) => .error (.parse reason place.line place.column)
  | .accepted callbacks printed => do
      let outline ← Outline.ofEvents source (Callback.events ⟨source, scanning⟩ callbacks)
      match outline.index with
      | .ok index => .ok ⟨outline, index, printed⟩
      | .error cause => .error (.index cause)

end Analysis
end StyleAtlas
