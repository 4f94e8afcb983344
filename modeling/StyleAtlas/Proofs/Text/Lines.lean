import Mathlib.Data.List.Basic
import StyleAtlas.Text.Source

/-!
# Offsets, lines and columns

How positions and byte offsets of a source belong together: lowering a position to the text never
leaves the text, and the position of a place between two characters leads back to that place.

Main results:

- Theorem `Source.clamp_le_size`: every position is lowered to an offset of the text.
- Theorem `Source.clamp_positionOf`: the position of a place between two characters is lowered to
  that place.
-/

namespace StyleAtlas
namespace Text

/-! ## Lines of a text -/

/-- A line feed in front makes an empty line. -/
theorem splitLines_newline (cs : List Char) : splitLines ('\n' :: cs) = [] :: splitLines cs := by
  simp [splitLines]

/-- A character that ends no line extends the first line of the rest. -/
theorem splitLines_cons {c : Char} (hc : c ≠ '\n') {cs line : List Char} {lines : List (List Char)}
    (h : splitLines cs = line :: lines) : splitLines (c :: cs) = (c :: line) :: lines := by
  simp [splitLines, hc, h]

/-- A text is its first line alone, or its first line, a line feed and the remaining lines. -/
theorem exists_splitLines_eq_cons (cs : List Char) :
    ∃ line lines, splitLines cs = line :: lines :=
  List.exists_cons_of_ne_nil (splitLines_ne_nil cs)

/-- No boundary lies past the end of a text. -/
theorem floorBoundary_le_byteSize (cs : List Char) (n : Nat) :
    floorBoundary cs n ≤ byteSize cs := by
  induction cs generalizing n with
  | nil => simp [floorBoundary]
  | cons c cs ih =>
      unfold floorBoundary
      split
      · simp
      · have := ih (n - c.utf8Size)
        simp
        omega

@[simp]
theorem floorBoundary_zero (cs : List Char) : floorBoundary cs 0 = 0 := by
  cases cs with
  | nil => rfl
  | cons c cs => simp [floorBoundary, c.utf8Size_pos]

/-- Behind a character, a byte count is lowered as in the text after it. -/
theorem floorBoundary_cons_add (c : Char) (cs : List Char) (n : Nat) :
    floorBoundary (c :: cs) (c.utf8Size + n) = c.utf8Size + floorBoundary cs n := by
  have hle : ¬c.utf8Size + n < c.utf8Size := by omega
  simp [floorBoundary, hle]

/-- Every line ends inside the text. -/
theorem lineOffset_add_byteSize_le (cs : List Char) {n : Nat} (h : n < (splitLines cs).length) :
    lineOffset (splitLines cs) n + byteSize ((splitLines cs).getD n []) ≤ byteSize cs := by
  induction cs generalizing n with
  | nil =>
      have hn : n = 0 := by simpa [splitLines] using h
      simp [hn, splitLines, lineOffset]
  | cons c cs ih =>
      by_cases hc : c = '\n'
      · subst hc
        rw [splitLines_newline] at h ⊢
        cases n with
        | zero => simp [lineOffset]
        | succ n =>
            have hrest := ih (n := n) (by simpa using h)
            have hsize : '\n'.utf8Size = 1 := by decide
            simp [lineOffset, hsize] at hrest ⊢
            omega
      · obtain ⟨line, lines, hlines⟩ := exists_splitLines_eq_cons cs
        rw [splitLines_cons hc hlines] at h ⊢
        rw [hlines] at ih
        have hrest := ih (n := n) (by simpa using h)
        cases n with
        | zero =>
            simp [lineOffset] at hrest ⊢
            omega
        | succ n =>
            simp [lineOffset] at hrest ⊢
            omega

/-! ## The position of a place between two characters -/

/-- Positions are on lines counted from the given one on. -/
theorem le_line_positionIn (lines : List (List Char)) (first offset : Nat) :
    first ≤ (positionIn lines first offset).line := by
  induction lines generalizing first offset with
  | nil => simp [positionIn]
  | cons line lines ih =>
      cases lines with
      | nil => simp [positionIn]
      | cons second lines =>
          unfold positionIn
          split
          · simp
          · exact Nat.le_of_succ_le (ih (first + 1) _)

/-- A longer first line moves the offsets on it, and leaves the positions on later lines. -/
theorem positionIn_cons_add (c : Char) (line : List Char) (lines : List (List Char))
    (first offset : Nat) :
    positionIn ((c :: line) :: lines) first (c.utf8Size + offset) =
      if (positionIn (line :: lines) first offset).line = first then
        ⟨first, c.utf8Size + (positionIn (line :: lines) first offset).column⟩
      else positionIn (line :: lines) first offset := by
  cases lines with
  | nil => simp [positionIn]
  | cons second lines =>
      by_cases hle : offset ≤ byteSize line
      · simp [positionIn, hle]
      · have hline := le_line_positionIn (second :: lines) (first + 1)
          (offset - (byteSize line + 1))
        have hmove : c.utf8Size + offset - (c.utf8Size + byteSize line + 1) =
            offset - (byteSize line + 1) := by omega
        have hother : (positionIn (line :: second :: lines) first offset).line ≠ first := by
          simp only [positionIn, hle, if_false]
          omega
        rw [if_neg hother]
        simp [positionIn, hle, hmove]

/-- Where an offset lies in the lines of a text: the position is on a line of the text, and its
column leads back to the offset. -/
def LeadsBack (lines : List (List Char)) (first offset : Nat) : Prop :=
  ∃ n column, positionIn lines first offset = ⟨first + n, column⟩ ∧ n < lines.length ∧
    lineOffset lines n + floorBoundary (lines.getD n []) column = offset

/-- A line feed in front moves a place to the next line. -/
theorem LeadsBack.newline {lines : List (List Char)} {first offset : Nat} (hne : lines ≠ [])
    (h : LeadsBack lines (first + 1) offset) : LeadsBack ([] :: lines) first (1 + offset) := by
  obtain ⟨n, column, hposition, hn, hoffset⟩ := h
  refine ⟨n + 1, column, ?_, by simpa using hn, ?_⟩
  · obtain ⟨line, lines, rfl⟩ := List.exists_cons_of_ne_nil hne
    simp [positionIn, hposition]
    omega
  · simp [lineOffset] at hoffset ⊢
    omega

/-- A character in front of the first line moves the places on that line only. -/
theorem LeadsBack.cons {line : List Char} {lines : List (List Char)} {first offset : Nat}
    (c : Char) (h : LeadsBack (line :: lines) first offset) :
    LeadsBack ((c :: line) :: lines) first (c.utf8Size + offset) := by
  obtain ⟨n, column, hposition, hn, hoffset⟩ := h
  cases n with
  | zero =>
      refine ⟨0, c.utf8Size + column, ?_, by simp, ?_⟩
      · simp [positionIn_cons_add, hposition]
      · simp [lineOffset] at hoffset
        simp [lineOffset, floorBoundary_cons_add, hoffset]
  | succ n =>
      refine ⟨n + 1, column, ?_, by simpa using hn, ?_⟩
      · simp [positionIn_cons_add, hposition]
      · simp [lineOffset] at hoffset ⊢
        omega

/-- A place between two characters has a position, and its column leads back to it. -/
theorem leadsBack_byteSize (cs ds : List Char) (first : Nat) :
    LeadsBack (splitLines (cs ++ ds)) first (byteSize cs) := by
  induction cs generalizing first with
  | nil =>
      obtain ⟨line, lines, hlines⟩ := exists_splitLines_eq_cons ([] ++ ds)
      rw [hlines]
      refine ⟨0, 0, ?_, by simp, by simp [lineOffset]⟩
      cases lines <;> simp [positionIn]
  | cons c cs ih =>
      by_cases hc : c = '\n'
      · subst hc
        rw [List.cons_append, splitLines_newline]
        exact (ih (first + 1)).newline (splitLines_ne_nil _)
      · obtain ⟨line, lines, hlines⟩ := exists_splitLines_eq_cons (cs ++ ds)
        have hrest := ih first
        rw [hlines] at hrest
        rw [List.cons_append, splitLines_cons hc hlines]
        exact hrest.cons c

end Text

namespace Source

open Text

/-- A lowered position is an offset of the text. -/
theorem clamp_le_size (s : Source) (p : Position) : s.clamp p ≤ s.size := by
  have hline : min p.line (s.lineCount - 1) < (splitLines s.chars).length := by
    have hpos := s.lineCount_pos
    unfold lineCount lines at *
    omega
  have hend := lineOffset_add_byteSize_le s.chars hline
  have hfloor := floorBoundary_le_byteSize
    ((splitLines s.chars).getD (min p.line (s.lineCount - 1)) []) p.column
  simp only [clamp, lineStart, lines, size]
  omega

/-- The position of a place between two characters is lowered to that place. -/
theorem clamp_positionOf {s : Source} {cs ds : List Char} (h : s.chars = cs ++ ds) {p : Position}
    (hp : s.positionOf (byteSize cs) = .ok p) : s.clamp p = byteSize cs := by
  have hle : ¬s.size < byteSize cs := by simp [size, h]
  simp only [positionOf, hle, if_false, Except.ok.injEq] at hp
  obtain ⟨n, column, hposition, hn, hoffset⟩ := leadsBack_byteSize cs ds 0
  rw [← h] at hposition hn hoffset
  rw [lines, hposition] at hp
  subst hp
  have hmin : min (0 + n) (s.lineCount - 1) = n := by
    unfold lineCount lines
    omega
  rw [clamp, hmin]
  exact hoffset

end Source
end StyleAtlas
