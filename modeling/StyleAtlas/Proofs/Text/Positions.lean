import Mathlib.Order.Bounds.Basic
import StyleAtlas.Proofs.Text.Boundary

/-!
# Offsets and positions in the same order

The positions of a text and its offsets are two names for the same places.  A position says on which
line an offset lies and how far behind the start of that line, and only the last line is open to the
right; so an offset has one position, and a later offset has a later one.  The strict conversion
undoes this at the boundaries of the text and refuses all other positions, while lowering a position
leads from an offset inside a character to the start of that character.

Main results:

- Definition `Text.Locates`, Theorem `Text.exists_locates`: where an offset lies in some lines.
- Theorem `Source.positionOf_eq_ok_iff`: which position an offset has.
- Theorem `Source.offsetOf_eq_ok_iff`: the strict conversion is the inverse at boundaries.
- Theorem `Source.isGreatest_clamp`: an offset inside a character is lowered to its start.
- Theorem `Source.positions_match_offsets`: both directions and the order, for a text whose
  positions fit into 32 bits.
-/

namespace StyleAtlas
namespace Text

/-! ## Starts of lines -/

/-- A line starts one byte behind the content of the line before it. -/
theorem lineOffset_succ {lines : List (List Char)} {n : Nat} (h : n < lines.length) :
    lineOffset lines (n + 1) = lineOffset lines n + byteSize (lines.getD n []) + 1 := by
  induction lines generalizing n with
  | nil => simp at h
  | cons line lines ih =>
      cases n with
      | zero => simp [lineOffset]
      | succ n =>
          have hrest := ih (n := n) (by simpa using h)
          simp only [lineOffset, List.getD_cons_succ] at hrest ⊢
          omega

/-- A line ends before every later line starts. -/
theorem lineOffset_add_byteSize_lt {lines : List (List Char)} {m n : Nat} (hmn : m < n)
    (hn : n < lines.length) :
    lineOffset lines m + byteSize (lines.getD m []) < lineOffset lines n := by
  induction n, hmn using Nat.le_induction with
  | base =>
      rw [lineOffset_succ (by omega)]
      omega
  | succ n hle ih =>
      rw [lineOffset_succ (by omega)]
      exact Nat.lt_of_lt_of_le (ih (by omega)) (by omega)

/-- Every line takes at least the byte of its line feed. -/
theorem le_lineOffset {lines : List (List Char)} {n : Nat} (h : n < lines.length) :
    n ≤ lineOffset lines n := by
  induction n with
  | zero => exact Nat.zero_le _
  | succ n ih =>
      have hbefore := ih (by omega)
      rw [lineOffset_succ (by omega)]
      omega

/-! ## The line and the column of an offset -/

/-- An offset lies on a line, at a column of it; on all lines but the last one, the column is not
past the end of the line. -/
structure Locates (lines : List (List Char)) (offset n column : Nat) : Prop where
  line_lt : n < lines.length
  offset_eq : lineOffset lines n + column = offset
  column_le : n + 1 < lines.length → column ≤ byteSize (lines.getD n [])

/-- The search for the line of an offset finds where it lies. -/
theorem exists_locates {lines : List (List Char)} (hne : lines ≠ []) (first offset : Nat) :
    ∃ n column, positionIn lines first offset = ⟨first + n, column⟩ ∧
      Locates lines offset n column := by
  induction lines generalizing first offset with
  | nil => exact absurd rfl hne
  | cons line lines ih =>
      cases lines with
      | nil => exact ⟨0, offset, rfl, by simp, by simp [lineOffset], by simp⟩
      | cons second lines =>
          by_cases hle : offset ≤ byteSize line
          · refine ⟨0, offset, by simp [positionIn, hle], by simp, by simp [lineOffset], ?_⟩
            simpa using hle
          · rcases ih (by simp) (first + 1) (offset - (byteSize line + 1)) with
              ⟨n, column, hposition, hlocates⟩
            have hoffset := hlocates.offset_eq
            refine ⟨n + 1, column, ?_, by simpa using hlocates.line_lt, ?_, ?_⟩
            · simp only [positionIn, if_neg hle, hposition]
              congr 1
              omega
            · simp only [lineOffset]
              omega
            · simpa using hlocates.column_le

section Locates

variable {lines : List (List Char)} {offset offset' n n' column column' : Nat}

/-- An offset that is not later lies on no later line. -/
theorem Locates.line_le (h : Locates lines offset n column) (h' : Locates lines offset' n' column')
    (hle : offset ≤ offset') : n ≤ n' := by
  by_contra hlt
  have hn := h.line_lt
  have hcolumn := h'.column_le (by omega)
  have hstart := lineOffset_add_byteSize_lt (Nat.lt_of_not_le hlt) hn
  have hoffset := h.offset_eq
  have hoffset' := h'.offset_eq
  omega

/-- An offset lies in one place only. -/
theorem Locates.unique (h : Locates lines offset n column)
    (h' : Locates lines offset n' column') : n = n' ∧ column = column' := by
  have hline : n = n' := Nat.le_antisymm (h.line_le h' le_rfl) (h'.line_le h le_rfl)
  subst hline
  have hoffset := h.offset_eq
  have hoffset' := h'.offset_eq
  exact ⟨rfl, by omega⟩

end Locates

/-! ## Lowered columns -/

/-- No boundary up to a byte count lies past the one that it is lowered to. -/
theorem le_floorBoundary {cs : List Char} {m n : Nat} (hm : isBoundary cs m = true) (hle : m ≤ n) :
    m ≤ floorBoundary cs n := by
  induction cs generalizing m n with
  | nil => simp_all [isBoundary]
  | cons c cs ih =>
      simp only [isBoundary, Bool.or_eq_true, Bool.and_eq_true, beq_iff_eq, decide_eq_true_eq] at hm
      rcases hm with rfl | ⟨hsize, hrest⟩
      · exact Nat.zero_le _
      · have hlower := ih hrest (Nat.sub_le_sub_right hle c.utf8Size)
        rw [floorBoundary, if_neg (by omega)]
        omega

/-- Lowering a byte count makes it no greater. -/
theorem floorBoundary_le (cs : List Char) (n : Nat) : floorBoundary cs n ≤ n := by
  induction cs generalizing n with
  | nil => exact Nat.zero_le _
  | cons c cs ih =>
      have hrest := ih (n - c.utf8Size)
      rw [floorBoundary]
      split <;> omega

end Text

namespace Source

open Text

/-! ## From offsets to positions -/

/-- An offset of the text has the position at which it lies. -/
theorem positionOf_eq_ok_iff {s : Source} {offset : Nat} {p : Position} :
    s.positionOf offset = .ok p ↔ offset ≤ s.size ∧ Locates s.lines offset p.line p.column := by
  rcases exists_locates (splitLines_ne_nil s.chars) 0 offset with ⟨n, column, hposition, hlocates⟩
  rw [Nat.zero_add] at hposition
  unfold positionOf
  split
  · rename_i hlt
    simp [Nat.not_le.mpr hlt]
  · rename_i hle
    rw [lines, hposition, Except.ok.injEq]
    constructor
    · rintro rfl
      exact ⟨Nat.not_lt.mp hle, hlocates⟩
    · rintro ⟨-, hp⟩
      rcases hlocates.unique hp with ⟨rfl, rfl⟩
      rfl

/-- The offsets up to the end of a source are those that have positions. -/
theorem exists_positionOf_iff {s : Source} {offset : Nat} :
    (∃ p, s.positionOf offset = .ok p) ↔ offset ≤ s.size := by
  constructor
  · rintro ⟨p, hp⟩
    exact (positionOf_eq_ok_iff.mp hp).1
  · intro hle
    rcases exists_locates (splitLines_ne_nil s.chars) 0 offset with ⟨n, column, -, hlocates⟩
    exact ⟨⟨n, column⟩, positionOf_eq_ok_iff.mpr ⟨hle, hlocates⟩⟩

/-- Line and column of a position are together at most the offset. -/
theorem line_add_column_le {s : Source} {offset : Nat} {p : Position}
    (h : s.positionOf offset = .ok p) : p.line + p.column ≤ offset := by
  have hlocates := (positionOf_eq_ok_iff.mp h).2
  have hline := le_lineOffset hlocates.line_lt
  have hoffset := hlocates.offset_eq
  omega

/-- Later offsets have later positions. -/
theorem position_lt_iff {s : Source} {offset offset' : Nat} {p p' : Position}
    (h : s.positionOf offset = .ok p) (h' : s.positionOf offset' = .ok p') :
    p < p' ↔ offset < offset' := by
  have hlocates := (positionOf_eq_ok_iff.mp h).2
  have hlocates' := (positionOf_eq_ok_iff.mp h').2
  have hoffset := hlocates.offset_eq
  have hoffset' := hlocates'.offset_eq
  constructor
  · rintro (hline | ⟨hline, hcolumn⟩)
    · by_contra hle
      have := hlocates'.line_le hlocates (Nat.not_lt.mp hle)
      omega
    · rw [hline] at hoffset
      omega
  · intro hlt
    rcases Nat.lt_or_eq_of_le (hlocates.line_le hlocates' hlt.le) with hline | hline
    · exact Or.inl hline
    · rw [hline] at hoffset
      exact Or.inr ⟨hline, by omega⟩

/-! ## From positions to offsets -/

/-- The strict conversion leads from a position to an offset exactly if the offset is a boundary
that has this position. -/
theorem offsetOf_eq_ok_iff {s : Source} {offset : Nat} {p : Position} :
    s.offsetOf p = .ok offset ↔
      isBoundary s.chars offset = true ∧ s.positionOf offset = .ok p := by
  constructor
  · intro h
    have hboundary := (isBoundary_of_offsetOf h).1
    refine ⟨hboundary, positionOf_eq_ok_iff.mpr ⟨le_byteSize_of_isBoundary hboundary, ?_⟩⟩
    unfold offsetOf at h
    split at h
    · simp at h
    · rename_i line hline
      split at h
      · rename_i hcolumn
        have hlt := (List.getElem?_eq_some_iff.mp hline).1
        refine ⟨hlt, Except.ok.inj h, fun _ => ?_⟩
        rw [List.getD_eq_getElem?_getD, show s.lines[p.line]? = some line from hline]
        exact le_byteSize_of_isBoundary hcolumn
      · simp at h
  · rintro ⟨hboundary, hp⟩
    rcases exists_positionOf hboundary with ⟨q, hq, hback⟩
    obtain rfl : p = q := Except.ok.inj (hp.symm.trans hq)
    exact hback

/-- A position of the text is on one of its lines. -/
theorem exists_line {s : Source} {offset : Nat} {p : Position} (h : s.positionOf offset = .ok p) :
    ∃ line, s.line? p.line = some line ∧ s.lines.getD p.line [] = line := by
  have hlt := (positionOf_eq_ok_iff.mp h).2.line_lt
  rcases hline : s.line? p.line with _ | line
  · exact absurd hlt (Nat.not_lt.mpr (List.getElem?_eq_none_iff.mp hline))
  · refine ⟨line, rfl, ?_⟩
    rw [List.getD_eq_getElem?_getD, show s.lines[p.line]? = some line from hline]
    rfl

/-- The position of an offset inside a character is on a line, but at none of its boundaries. -/
theorem offsetOf_eq_error {s : Source} {offset : Nat} {p : Position}
    (hp : s.positionOf offset = .ok p) (hinside : isBoundary s.chars offset = false) :
    ∃ line, s.line? p.line = some line ∧
      s.offsetOf p = .error (.columnOutOfRange p.line p.column (byteSize line)) := by
  rcases exists_line hp with ⟨line, hline, -⟩
  refine ⟨line, hline, ?_⟩
  by_cases hcolumn : isBoundary line p.column = true
  · have hoffset : s.offsetOf p = .ok offset := by
      rw [← (positionOf_eq_ok_iff.mp hp).2.offset_eq]
      simp only [offsetOf, hline, hcolumn, if_true, lineStart]
    rw [(offsetOf_eq_ok_iff.mp hoffset).1] at hinside
    simp at hinside
  · simp only [offsetOf, hline, hcolumn, if_false, Bool.false_eq_true]

/-- The position of an offset is lowered to the greatest boundary that is not past the offset. -/
theorem isGreatest_clamp {s : Source} {offset : Nat} {p : Position}
    (hp : s.positionOf offset = .ok p) :
    IsGreatest {place | isBoundary s.chars place = true ∧ place ≤ offset} (s.clamp p) := by
  have hlocates := (positionOf_eq_ok_iff.mp hp).2
  have hoffset := hlocates.offset_eq
  have hmin : min p.line (s.lineCount - 1) = p.line := by
    have hlt : p.line < s.lineCount := hlocates.line_lt
    omega
  rcases exists_line hp with ⟨line, hline, hcontent⟩
  have hclamp : s.clamp p = s.lineStart p.line + floorBoundary line p.column := by
    rw [clamp, hmin, hcontent]
  rw [hclamp]
  refine ⟨⟨hclamp ▸ isBoundary_clamp s p, ?_⟩, ?_⟩
  · have hfloor := floorBoundary_le line p.column
    unfold lineStart
    omega
  · -- A boundary on an earlier line comes before the start of this one, and a boundary on this line
    -- is one of its content.
    rintro place ⟨hplace, hle⟩
    rcases exists_positionOf hplace with ⟨q, hq, hback⟩
    have hother := (positionOf_eq_ok_iff.mp hq).2
    have hplaceEq := hother.offset_eq
    rcases Nat.lt_or_eq_of_le (hother.line_le hlocates hle) with hearlier | hsame
    · have hcolumn := hother.column_le (by have := hlocates.line_lt; omega)
      have hstart := lineOffset_add_byteSize_lt hearlier hlocates.line_lt
      unfold lineStart
      omega
    · have hboundary : isBoundary line q.column = true := by
        by_contra hnot
        simp [offsetOf, hsame, hline, hnot] at hback
      rw [hsame] at hplaceEq
      have hlower := le_floorBoundary (n := p.column) hboundary (by omega)
      unfold lineStart
      omega

/-! ## Both directions -/

/-- Offsets and positions of a text with less than 2 ^ 32 bytes.  The offsets up to the end of the
text have positions, whose lines and columns fit into 32 bits; the strict conversion accepts exactly
the positions of boundaries, and leads back to them; later offsets have later positions; and the
position of an offset inside a character is refused for its column, and lowered to the last boundary
before the offset. -/
theorem positions_match_offsets (s : Source) (hsize : s.size < UInt32.size) :
    (∀ offset, (∃ p, s.positionOf offset = .ok p) ↔ offset ≤ s.size) ∧
    (∀ offset p, s.positionOf offset = .ok p → p.line < UInt32.size ∧ p.column < UInt32.size) ∧
    (∀ offset p, s.offsetOf p = .ok offset ↔
      isBoundary s.chars offset = true ∧ s.positionOf offset = .ok p) ∧
    (∀ offset offset' p p', s.positionOf offset = .ok p → s.positionOf offset' = .ok p' →
      (p < p' ↔ offset < offset')) ∧
    (∀ offset p, s.positionOf offset = .ok p → isBoundary s.chars offset = false →
      (∃ line, s.line? p.line = some line ∧
        s.offsetOf p = .error (.columnOutOfRange p.line p.column (byteSize line))) ∧
      IsGreatest {place | isBoundary s.chars place = true ∧ place < offset} (s.clamp p)) := by
  refine ⟨fun _ => exists_positionOf_iff, ?_, fun _ _ => offsetOf_eq_ok_iff,
    fun _ _ _ _ hp hp' => position_lt_iff hp hp', ?_⟩
  · intro offset p hp
    have hsum := line_add_column_le hp
    have hle := (positionOf_eq_ok_iff.mp hp).1
    omega
  · intro offset p hp hinside
    refine ⟨offsetOf_eq_error hp hinside, ?_⟩
    rcases isGreatest_clamp hp with ⟨⟨hboundary, hle⟩, hupper⟩
    refine ⟨⟨hboundary, lt_of_le_of_ne hle ?_⟩, ?_⟩
    · intro hsame
      rw [hsame, hinside] at hboundary
      simp at hboundary
    · rintro place ⟨hplace, hlt⟩
      exact hupper ⟨hplace, hlt.le⟩

/-- Two lines, the first of which ends in a letter of two bytes. -/
def accentedLine : Source :=
  ⟨['a', 'é', '\n', 'b']⟩

/-- The offset inside the letter of two bytes is refused, and lowered to the start of the letter. -/
theorem positions_match_offsets_accentedLine :
    accentedLine.size < UInt32.size ∧
      accentedLine.positionOf 2 = .ok ⟨0, 2⟩ ∧ accentedLine.positionOf 4 = .ok ⟨1, 0⟩ ∧
      (⟨0, 2⟩ : Position) < ⟨1, 0⟩ ∧
      accentedLine.offsetOf ⟨0, 2⟩ = .error (.columnOutOfRange 0 2 3) ∧
      IsGreatest {place | isBoundary accentedLine.chars place = true ∧ place < 2} 1 := by
  have hsize : accentedLine.size < UInt32.size := by decide
  have hinside : accentedLine.positionOf 2 = .ok ⟨0, 2⟩ := by rfl
  have hnext : accentedLine.positionOf 4 = .ok ⟨1, 0⟩ := by rfl
  rcases positions_match_offsets accentedLine hsize with ⟨-, -, -, horder, hlowered⟩
  rcases hlowered 2 _ hinside (by decide) with ⟨⟨line, hline, herror⟩, hgreatest⟩
  obtain rfl : ['a', 'é'] = line := Option.some.inj hline
  exact ⟨hsize, hinside, hnext, (horder 2 4 _ _ hinside hnext).mpr (by decide), herror, hgreatest⟩

end Source
end StyleAtlas
