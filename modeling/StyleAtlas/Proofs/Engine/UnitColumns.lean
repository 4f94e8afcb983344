import Mathlib.Order.Bounds.Basic
import StyleAtlas.Engine.Walk
import StyleAtlas.Proofs.Text.Boundary

/-!
# Columns in UTF-16 units

The engine counts columns in UTF-16 units, and a text counts them in bytes.  Both counts go up from
character to character, each at its own rate, so a column in units is converted to the first
boundary of the line at which enough units are counted.  A column between the two units of one
character is thereby rounded up to the end of that character, and a column past the end of the line
is lowered to its end.  What comes out is a boundary of the line in every case, so the place of a
rule is known exactly if its line exists.

Main results:

- Definition `Text.reaching`: the boundaries up to which a number of units is counted.
- Theorem `Text.unitsToBytes_between`: the columns that fall on one character.
- Theorems `Text.isLeast_unitsToBytes`, `Text.unitsToBytes_of_lt`: the boundary that is found.
- Theorem `WalkContext.walkRule_located`: what the walk of a rule on an existing line does.
- Theorem `Source.unit_columns_convert_exactly`: conversion of columns, and the places of rules.
-/

namespace StyleAtlas
namespace Text

/-! ## Units of a text -/

/-- Every character has units. -/
theorem unitSize_pos (c : Char) : 0 < unitSize c := by
  unfold unitSize
  split <;> omega

@[simp]
theorem unitCount_nil : unitCount [] = 0 :=
  rfl

/-- The units of a text are those of its characters. -/
@[simp]
theorem unitCount_cons (c : Char) (cs : List Char) :
    unitCount (c :: cs) = unitSize c + unitCount cs :=
  rfl

/-- The units of two texts add up. -/
@[simp]
theorem unitCount_append (cs ds : List Char) :
    unitCount (cs ++ ds) = unitCount cs + unitCount ds := by
  induction cs with
  | nil => simp
  | cons c cs ih => simp [ih, Nat.add_assoc]

/-! ## From units to bytes -/

@[simp]
theorem unitsToBytes_zero (cs : List Char) : unitsToBytes cs 0 = 0 := by
  cases cs <;> simp [unitsToBytes]

/-- The units of an initial part lead to its end, and further units past it. -/
theorem unitsToBytes_append (front back : List Char) (units : Nat) :
    unitsToBytes (front ++ back) (unitCount front + units) =
      byteSize front + unitsToBytes back units := by
  induction front with
  | nil => simp
  | cons c front ih =>
      have hpos := unitSize_pos c
      have hrest : unitSize c + unitCount front + units - unitSize c =
          unitCount front + units := by omega
      rw [List.cons_append, unitsToBytes, unitCount_cons, if_neg (by omega), hrest, ih,
        byteSize_cons, Nat.add_assoc]

/-- A count that goes past an initial part, but not past the character behind it, leads to the end
of that character. -/
theorem unitsToBytes_between {front back : List Char} {c : Char} {units : Nat}
    (hpast : unitCount front < units) (hle : units ≤ unitCount front + unitSize c) :
    unitsToBytes (front ++ c :: back) units = byteSize (front ++ [c]) := by
  obtain ⟨more, rfl⟩ : ∃ more, units = unitCount front + more := ⟨units - unitCount front, by omega⟩
  have hzero : more - unitSize c = 0 := by omega
  rw [unitsToBytes_append, unitsToBytes, if_neg (by omega), hzero]
  simp

/-- The boundaries of a text up to which at least a number of units is counted. -/
def reaching (cs : List Char) (units : Nat) : Set Nat :=
  {n | ∃ front back, cs = front ++ back ∧ byteSize front = n ∧ units ≤ unitCount front}

/-- A count that the text reaches leads to the first boundary up to which it is reached. -/
theorem isLeast_unitsToBytes {cs : List Char} {units : Nat} (h : units ≤ unitCount cs) :
    IsLeast (reaching cs units) (unitsToBytes cs units) := by
  induction cs generalizing units with
  | nil =>
      obtain rfl : units = 0 := by simpa using h
      exact ⟨⟨[], [], rfl, rfl, le_rfl⟩, fun _ _ => Nat.zero_le _⟩
  | cons c cs ih =>
      by_cases hzero : units = 0
      · subst hzero
        exact ⟨⟨[], c :: cs, rfl, by simp, le_rfl⟩, fun _ _ => by simp⟩
      · rw [unitsToBytes, if_neg hzero]
        rw [unitCount_cons] at h
        have hrest : units - unitSize c ≤ unitCount cs := by omega
        rcases ih hrest with ⟨⟨front, back, hsplit, hsize, hle⟩, hlower⟩
        constructor
        · refine ⟨c :: front, back, by rw [hsplit, List.cons_append], by simp [hsize], ?_⟩
          rw [unitCount_cons]
          omega
        · -- A boundary up to which units are counted has the first character before it.
          rintro n ⟨front', back', hsplit', rfl, hle'⟩
          cases front' with
          | nil => simp at hle'; omega
          | cons d front' =>
              obtain ⟨rfl, rfl⟩ : c = d ∧ cs = front' ++ back' := by simpa using hsplit'
              rw [unitCount_cons] at hle'
              exact Nat.add_le_add_left (hlower ⟨front', back', rfl, rfl, by omega⟩) _

/-- A count that the text does not reach leads to its end. -/
theorem unitsToBytes_of_lt {cs : List Char} {units : Nat} (h : unitCount cs < units) :
    unitsToBytes cs units = byteSize cs := by
  obtain ⟨more, rfl⟩ : ∃ more, units = unitCount cs + more := ⟨units - unitCount cs, by omega⟩
  have hend := unitsToBytes_append cs [] more
  rwa [List.append_nil, unitsToBytes, Nat.add_zero] at hend

/-- Past the last unit of a text, none of its boundaries is reached. -/
theorem reaching_eq_empty {cs : List Char} {units : Nat} (h : unitCount cs < units) :
    reaching cs units = ∅ := by
  rw [Set.eq_empty_iff_forall_notMem]
  rintro n ⟨front, back, rfl, -, hle⟩
  rw [unitCount_append] at h
  omega

/-- More units lead to no earlier boundary. -/
theorem unitsToBytes_mono (cs : List Char) : Monotone (unitsToBytes cs) := by
  intro units units' hle
  rcases Nat.lt_or_ge (unitCount cs) units' with hlt | hge
  · rw [unitsToBytes_of_lt hlt]
    exact le_byteSize_of_isBoundary (isBoundary_unitsToBytes cs units)
  · rcases (isLeast_unitsToBytes hge).1 with ⟨front, back, hsplit, hsize, hreach⟩
    exact (isLeast_unitsToBytes (hle.trans hge)).2 ⟨front, back, hsplit, hsize, hle.trans hreach⟩

end Text

namespace Source

open Text

variable {s : Source} {line : Nat} {content : List Char}

/-- A column of an existing line is converted, whatever the column. -/
theorem byteColumn_eq_ok (hline : s.line? line = some content) (units : Nat) :
    s.byteColumn line units = .ok (unitsToBytes content units) := by
  simp only [byteColumn, hline]

/-- Exactly the lines of the text have columns. -/
theorem exists_byteColumn_iff (units : Nat) :
    (∃ column, s.byteColumn line units = .ok column) ↔ line < s.lineCount := by
  unfold byteColumn
  cases hline : s.line? line with
  | none =>
      have hle : s.lineCount ≤ line := List.getElem?_eq_none_iff.mp hline
      simpa using hle
  | some content =>
      have hlt : line < s.lineCount := (List.getElem?_eq_some_iff.mp hline).1
      simpa using hlt

/-- The column that units lead to is a place of the text. -/
theorem offsetOf_byteColumn {units column : Nat} (h : s.byteColumn line units = .ok column) :
    s.offsetOf ⟨line, column⟩ = .ok (s.lineStart line + column) := by
  rcases hline : s.line? line with _ | content
  · simp [byteColumn, hline] at h
  · rw [byteColumn_eq_ok hline] at h
    obtain rfl := Except.ok.inj h
    simp only [offsetOf, hline, isBoundary_unitsToBytes, if_true]

/-- How columns in units are converted on one line.  The units of an initial part give its bytes;
every column gives the first boundary of the line that it reaches, or else the end of the line; a
column between the two units of a character gives the end of the character; larger columns give no
smaller ones; and what a column gives is a place of the text. -/
structure ConvertsUnits (s : Source) (line : Nat) (content : List Char) : Prop where
  exact : ∀ front back, content = front ++ back →
    s.byteColumn line (unitCount front) = .ok (byteSize front)
  reached : ∀ units, units ≤ unitCount content →
    ∃ column, s.byteColumn line units = .ok column ∧ IsLeast (reaching content units) column
  unreached : ∀ units, unitCount content < units →
    reaching content units = ∅ ∧ s.byteColumn line units = .ok (byteSize content)
  rounds_up : ∀ front c back, content = front ++ c :: back → unitSize c = 2 →
    s.byteColumn line (unitCount front + 1) = .ok (byteSize (front ++ [c]))
  monotone : ∀ units units' column column', units ≤ units' →
    s.byteColumn line units = .ok column → s.byteColumn line units' = .ok column' →
    column ≤ column'
  place : ∀ units column, s.byteColumn line units = .ok column →
    s.offsetOf ⟨line, column⟩ = .ok (s.lineStart line + column)

/-- Columns of an existing line are converted as they should be. -/
theorem convertsUnits (hline : s.line? line = some content) : s.ConvertsUnits line content where
  exact := by
    rintro front back rfl
    rw [byteColumn_eq_ok hline]
    simpa using unitsToBytes_append front back 0
  reached := fun units hle => ⟨_, byteColumn_eq_ok hline units, isLeast_unitsToBytes hle⟩
  unreached := by
    intro units hlt
    rw [byteColumn_eq_ok hline, unitsToBytes_of_lt hlt]
    exact ⟨reaching_eq_empty hlt, rfl⟩
  rounds_up := by
    rintro front c back rfl hpair
    rw [byteColumn_eq_ok hline, unitsToBytes_between (by omega) (by omega)]
  monotone := by
    intro units units' column column' hle hcolumn hcolumn'
    rw [byteColumn_eq_ok hline] at hcolumn hcolumn'
    obtain rfl := Except.ok.inj hcolumn
    obtain rfl := Except.ok.inj hcolumn'
    exact unitsToBytes_mono content hle
  place := fun _ _ => offsetOf_byteColumn

end Source

/-! ## Places of rules -/

/-- The place that the engine gives to a rule, where it knows one. -/
def RuleType.placeOf (type : RuleType) (place : Option Place) : Option Place :=
  if type.isLocated then place else none

namespace WalkContext

variable {ctx : WalkContext} {type : RuleType} {place : Option Place}

/-- A rule whose line exists is entered with the engine's place, and its window opens there. -/
theorem walkRule_located (htype : type ≠ .nestedDeclarations) {p : Place}
    (hplace : type.placeOf place = some p) {column : Nat}
    (hcolumn : ctx.source.byteColumn p.line (p.column - 1) = .ok column) (inner : Walk)
    (s : Scanner) :
    (ctx.walkRule type place inner s).1 =
      .enter .rule ⟨type.label, none, some ⟨⟨p.line, column⟩, .engine⟩⟩ ::
        (inner (s.openBlock ctx.source (ctx.source.lineStart p.line + column))).1 ++
        [.exit .rule] := by
  have hoffset := Source.offsetOf_byteColumn hcolumn
  have hposition : (if type.isLocated then place else none).bind ctx.position? =
      some ⟨p.line, column⟩ := by
    rw [show (if type.isLocated then place else none) = some p from hplace]
    simp only [Option.bind_some, position?, hcolumn]
  simp only [walkRule, htype, if_false, hposition, Option.bind_some, hoffset, Except.toOption,
    Option.map_some]

/-- A rule without a place, or whose line does not exist, is entered without one. -/
theorem walkRule_unlocated (htype : type ≠ .nestedDeclarations)
    (hplace : ∀ p, type.placeOf place = some p → ctx.source.lineCount ≤ p.line) (inner : Walk)
    (s : Scanner) :
    (ctx.walkRule type place inner s).1 =
      .enter .rule ⟨type.label, none, none⟩ :: (inner (s.inheritBlock ctx.source)).1 ++
        [.exit .rule] := by
  have hposition : (if type.isLocated then place else none).bind ctx.position? = none := by
    rcases hknown : type.placeOf place with _ | p
    · rw [show (if type.isLocated then place else none) = none from hknown]
      rfl
    · have hnone : ctx.source.line? p.line = none := List.getElem?_eq_none (hplace p hknown)
      rw [show (if type.isLocated then place else none) = some p from hknown]
      simp only [Option.bind_some, position?, Source.byteColumn, hnone]
  simp only [walkRule, htype, if_false, hposition, Option.bind_none, Option.map_none]

end WalkContext

namespace Source

open Text

/-- Columns in UTF-16 units, and what becomes of them.  On every existing line they are converted as
`ConvertsUnits` says, and on no other.  The walk of a rule enters it with a location of the engine
exactly if the engine has a place for it whose line exists; the location is then on this line, at
the column that the units of the place lead to. -/
theorem unit_columns_convert_exactly (s : Source) :
    (∀ line content, s.line? line = some content → s.ConvertsUnits line content) ∧
    (∀ line units, (∃ column, s.byteColumn line units = .ok column) ↔ line < s.lineCount) ∧
    ∀ scanning type place children scanner, type ≠ RuleType.nestedDeclarations →
      ∃ location events,
        (Callback.walk ⟨s, scanning⟩ (.rule type place children) scanner).1 =
          .enter .rule ⟨type.label, none, location⟩ :: events ++ [.exit .rule] ∧
        (location.isSome ↔ ∃ p, type.placeOf place = some p ∧ p.line < s.lineCount) ∧
        ∀ l, location = some l → l.origin = .engine ∧
          ∃ p, type.placeOf place = some p ∧ l.position.line = p.line ∧
            s.byteColumn p.line (p.column - 1) = .ok l.position.column := by
  refine ⟨fun _ _ => convertsUnits, fun _ => exists_byteColumn_iff, ?_⟩
  intro scanning type place children scanner htype
  by_cases hexists : ∃ p, type.placeOf place = some p ∧ p.line < s.lineCount
  · rcases hexists with ⟨p, hplace, hline⟩
    rcases (exists_byteColumn_iff (p.column - 1)).mpr hline with ⟨column, hcolumn⟩
    refine ⟨_, _, WalkContext.walkRule_located htype hplace hcolumn _ scanner, ?_, ?_⟩
    · simp [hplace, hline]
    · rintro l hl
      obtain rfl := Option.some.inj hl
      exact ⟨rfl, p, hplace, rfl, hcolumn⟩
  · have hnone : ∀ p, type.placeOf place = some p → s.lineCount ≤ p.line :=
      fun p hplace => Nat.le_of_not_lt fun hline => hexists ⟨p, hplace, hline⟩
    refine ⟨_, _, WalkContext.walkRule_unlocated htype hnone _ scanner, ?_, ?_⟩
    · simpa using hexists
    · rintro l hl
      simp at hl

end Source
end StyleAtlas
