import StyleAtlas.Proofs.Text.Lines
import StyleAtlas.Proofs.Text.WalkBack

/-!
# Places between characters

A byte count is a boundary of a text when it falls between two characters or at an end.  Every
offset that the outline of a text works with is a boundary: positions are lowered to one, and
walking back leads from one to another.  Boundaries are exactly convertible: a boundary has a
position, and the strict conversion of that position gives the boundary back.

Main results:

- Theorem `isBoundary_iff`: boundaries are the sizes of initial parts.
- Theorem `Source.isBoundary_clamp`: a position is lowered to a boundary.
- Theorem `isBoundary_closingEnd`: walking back from a boundary leads to a boundary.
- Theorem `Source.exists_rangeOf`: an extent between two boundaries has a range of positions, which
  converts back to the extent.
- Theorem `Source.sliceOffsets_byteSize`: a part of the text is what its offsets cut out.
-/

namespace StyleAtlas
namespace Text

/-! ## Initial parts -/

/-- The boundaries of a text are the sizes of its initial parts. -/
theorem isBoundary_iff {cs : List Char} {n : Nat} :
    isBoundary cs n = true ↔ ∃ front back, cs = front ++ back ∧ byteSize front = n := by
  induction cs generalizing n with
  | nil =>
      simp only [isBoundary, beq_iff_eq, List.nil_eq, List.append_eq_nil_iff]
      constructor
      · rintro rfl
        exact ⟨[], [], ⟨rfl, rfl⟩, rfl⟩
      · rintro ⟨front, back, ⟨rfl, -⟩, rfl⟩
        rfl
  | cons c cs ih =>
      simp only [isBoundary, Bool.or_eq_true, Bool.and_eq_true, beq_iff_eq, decide_eq_true_eq, ih]
      constructor
      · rintro (rfl | ⟨hle, front, back, rfl, hsize⟩)
        · exact ⟨[], c :: cs, rfl, rfl⟩
        · exact ⟨c :: front, back, rfl, by simp [hsize]; omega⟩
      · rintro ⟨front, back, hsplit, rfl⟩
        cases front with
        | nil => exact Or.inl rfl
        | cons d front =>
            obtain ⟨rfl, rfl⟩ : c = d ∧ cs = front ++ back := by simpa using hsplit
            exact Or.inr ⟨by simp, front, back, rfl, by simp⟩

/-- The end of the front of a text is a boundary. -/
theorem isBoundary_byteSize (cs ds : List Char) : isBoundary (cs ++ ds) (byteSize cs) = true :=
  isBoundary_iff.mpr ⟨cs, ds, rfl, rfl⟩

/-- A text starts at a boundary. -/
@[simp]
theorem isBoundary_zero (cs : List Char) : isBoundary cs 0 = true :=
  isBoundary_iff.mpr ⟨[], cs, rfl, rfl⟩

/-- A text ends at a boundary. -/
@[simp]
theorem isBoundary_byteSize_self (cs : List Char) : isBoundary cs (byteSize cs) = true :=
  isBoundary_iff.mpr ⟨cs, [], by simp, rfl⟩

/-- Boundaries lie in the text. -/
theorem le_byteSize_of_isBoundary {cs : List Char} {n : Nat} (h : isBoundary cs n = true) :
    n ≤ byteSize cs := by
  obtain ⟨front, back, rfl, rfl⟩ := isBoundary_iff.mp h
  simp

/-- A boundary of a part of a text, seen from the whole text. -/
theorem isBoundary_append (before after : List Char) {cs : List Char} {n : Nat}
    (h : isBoundary cs n = true) :
    isBoundary (before ++ cs ++ after) (byteSize before + n) = true := by
  obtain ⟨front, back, rfl, rfl⟩ := isBoundary_iff.mp h
  exact isBoundary_iff.mpr ⟨before ++ front, back ++ after, by simp, by simp⟩

/-- The greater of two boundaries is one. -/
theorem isBoundary_max {cs : List Char} {m n : Nat} (hm : isBoundary cs m = true)
    (hn : isBoundary cs n = true) : isBoundary cs (max m n) = true := by
  rcases Nat.le_total m n with hle | hle
  · rwa [Nat.max_eq_right hle]
  · rwa [Nat.max_eq_left hle]

/-- The lesser of two boundaries is one. -/
theorem isBoundary_min {cs : List Char} {m n : Nat} (hm : isBoundary cs m = true)
    (hn : isBoundary cs n = true) : isBoundary cs (min m n) = true := by
  rcases Nat.le_total m n with hle | hle
  · rwa [Nat.min_eq_left hle]
  · rwa [Nat.min_eq_right hle]

/-! ## Lowered columns -/

/-- Lowering a byte count gives a boundary. -/
theorem isBoundary_floorBoundary (cs : List Char) (n : Nat) :
    isBoundary cs (floorBoundary cs n) = true := by
  induction cs generalizing n with
  | nil => rfl
  | cons c cs ih =>
      unfold floorBoundary
      split
      · simp
      · simpa using isBoundary_append [c] [] (ih (n - c.utf8Size))

/-- The bytes of some units end at a boundary. -/
theorem isBoundary_unitsToBytes (cs : List Char) (units : Nat) :
    isBoundary cs (unitsToBytes cs units) = true := by
  induction cs generalizing units with
  | nil => rfl
  | cons c cs ih =>
      unfold unitsToBytes
      split
      · simp
      · simpa using isBoundary_append [c] [] (ih (units - unitSize c))

/-- A boundary is lowered to itself. -/
theorem floorBoundary_of_isBoundary {cs : List Char} {n : Nat} (h : isBoundary cs n = true) :
    floorBoundary cs n = n := by
  rcases isBoundary_iff.mp h with ⟨front, back, rfl, rfl⟩
  induction front with
  | nil => simp
  | cons c front ih =>
      rw [List.cons_append, byteSize_cons, floorBoundary_cons_add,
        ih (isBoundary_byteSize front back)]

/-- Every line is a part of the text, and starts at its offset. -/
theorem exists_split_line (cs : List Char) {n : Nat} (h : n < (splitLines cs).length) :
    ∃ before after, cs = before ++ (splitLines cs).getD n [] ++ after ∧
      byteSize before = lineOffset (splitLines cs) n := by
  induction cs generalizing n with
  | nil =>
      have hn : n = 0 := by simpa [splitLines] using h
      exact ⟨[], [], by simp [hn, splitLines], by simp [hn, lineOffset]⟩
  | cons c cs ih =>
      by_cases hc : c = '\n'
      · subst hc
        rw [splitLines_newline] at h ⊢
        cases n with
        | zero => exact ⟨[], '\n' :: cs, by simp, by simp [lineOffset]⟩
        | succ n =>
            obtain ⟨before, after, hsplit, hsize⟩ := ih (n := n) (by simpa using h)
            refine ⟨'\n' :: before, after, ?_, ?_⟩
            · conv_lhs => rw [hsplit]
              simp
            · have hfeed : '\n'.utf8Size = 1 := by decide
              simp [lineOffset, hsize, hfeed]
      · obtain ⟨line, lines, hlines⟩ := exists_splitLines_eq_cons cs
        rw [splitLines_cons hc hlines] at h ⊢
        rw [hlines] at ih
        obtain ⟨before, after, hsplit, hsize⟩ := ih (n := n) (by simpa using h)
        cases n with
        | zero =>
            -- The first line starts the text, so nothing stands before it.
            have hbefore : before = [] := by
              cases before with
              | nil => rfl
              | cons d before =>
                  have := d.utf8Size_pos
                  simp [lineOffset] at hsize
                  omega
            subst hbefore
            refine ⟨[], after, ?_, by simp [lineOffset]⟩
            conv_lhs => rw [hsplit]
            simp
        | succ n =>
            refine ⟨c :: before, after, ?_, ?_⟩
            · conv_lhs => rw [hsplit]
              simp
            · simp [lineOffset] at hsize ⊢
              omega

/-! ## Walking back -/

/-- Visible characters end at boundaries. -/
theorem isBoundary_of_mem_visibleEnds {cs : List Char} {e : Nat} (h : e ∈ visibleEnds cs) :
    isBoundary cs e = true := by
  induction cs generalizing e with
  | nil => simp at h
  | cons c cs ih =>
      simp only [visibleEnds, List.mem_append, List.mem_map] at h
      rcases h with h | ⟨e', he', rfl⟩
      · split at h
        · simp at h
        · rw [List.mem_singleton.mp h]
          simpa using isBoundary_byteSize [c] cs
      · simpa using isBoundary_append [c] [] (ih he')

/-- A step back leads to a boundary, from wherever it starts. -/
theorem isBoundary_stepBack (cs : List Char) (offset : Nat) :
    isBoundary cs (stepBack cs offset) = true := by
  unfold stepBack
  cases hlast : (visibleEndsTo cs offset).dropLast.getLast? with
  | none => simp
  | some e =>
      have hmem : e ∈ visibleEndsTo cs offset :=
        List.dropLast_subset _ (List.mem_of_getLast? hlast)
      exact isBoundary_of_mem_visibleEnds (mem_visibleEndsTo.mp hmem).1

/-- A node that closes at a boundary ends at one. -/
theorem isBoundary_closingEnd {cs : List Char} {boundary : Nat}
    (h : isBoundary cs boundary = true) (levels : Nat) :
    isBoundary cs (closingEnd cs boundary levels) = true := by
  cases levels with
  | zero => exact h
  | succ levels =>
      rw [closingEnd, walkBack_eq_stepBack]
      exact isBoundary_stepBack cs _

/-! ## Cuts -/

/-- What remains after an initial part is the other part. -/
@[simp]
theorem charsFrom_byteSize (front back : List Char) :
    charsFrom (front ++ back) (byteSize front) = back := by
  induction front with
  | nil => cases back <;> simp [charsFrom]
  | cons c front ih =>
      have hpos := c.utf8Size_pos
      simp only [List.cons_append, charsFrom, byteSize_cons]
      rw [if_neg (by omega), Nat.add_sub_cancel_left, ih]

/-- A text can be split at the end of its front. -/
theorem splitAt?_byteSize (front back : List Char) :
    splitAt? (front ++ back) (byteSize front) = some (front, back) := by
  induction front with
  | nil => cases back <;> simp [splitAt?]
  | cons c front ih =>
      have hpos := c.utf8Size_pos
      simp only [List.cons_append, splitAt?, byteSize_cons]
      rw [if_neg (by omega), if_neg (by omega), Nat.add_sub_cancel_left, ih]
      rfl

/-- The part of a text between the ends of two initial parts. -/
theorem slice?_byteSize (before part after : List Char) :
    slice? (before ++ part ++ after) (byteSize before) (byteSize before + byteSize part) =
      some part := by
  have hcut := splitAt?_byteSize before (part ++ after)
  have hcut' := splitAt?_byteSize part after
  rw [← List.append_assoc] at hcut
  unfold slice?
  rw [if_neg (by omega), Nat.add_sub_cancel_left, hcut]
  simp only [bind, Option.bind, hcut']

/-! ## Positions -/

/-- The line and the column of a position lead back to its offset. -/
theorem lineOffset_positionIn {lines : List (List Char)} {first offset n column : Nat}
    (h : positionIn lines first offset = ⟨first + n, column⟩) :
    lineOffset lines n + column = offset := by
  induction lines generalizing first offset n with
  | nil =>
      obtain ⟨rfl, rfl⟩ : n = 0 ∧ offset = column := by simpa [positionIn] using h
      simp [lineOffset]
  | cons line lines ih =>
      cases lines with
      | nil =>
          obtain ⟨rfl, rfl⟩ : n = 0 ∧ offset = column := by simpa [positionIn] using h
          simp [lineOffset]
      | cons second lines =>
          unfold positionIn at h
          split at h
          · obtain ⟨rfl, rfl⟩ : n = 0 ∧ offset = column := by simpa using h
            simp [lineOffset]
          · have hline := le_line_positionIn (second :: lines) (first + 1)
              (offset - (byteSize line + 1))
            rw [h] at hline
            obtain ⟨m, rfl⟩ : ∃ m, n = m + 1 := ⟨n - 1, by simp at hline; omega⟩
            have hrest := ih (n := m) (h.trans (by congr 1; omega))
            simp only [lineOffset]
            omega

end Text

namespace Source

open Text

/-- A source ends at a boundary. -/
theorem isBoundary_size (s : Source) : isBoundary s.chars s.size = true :=
  isBoundary_byteSize_self s.chars

/-- A lowered position is a boundary of the text. -/
theorem isBoundary_clamp (s : Source) (p : Position) : isBoundary s.chars (s.clamp p) = true := by
  have hline : min p.line (s.lineCount - 1) < (splitLines s.chars).length := by
    have hpos := s.lineCount_pos
    unfold lineCount lines at *
    omega
  obtain ⟨before, after, hsplit, hsize⟩ := exists_split_line s.chars hline
  have hfloor := isBoundary_append before after
    (isBoundary_floorBoundary ((splitLines s.chars).getD (min p.line (s.lineCount - 1)) [])
      p.column)
  rw [← hsplit, hsize] at hfloor
  exact hfloor

/-- A boundary has a position, and the strict conversion of that position gives it back. -/
theorem exists_positionOf {s : Source} {offset : Nat} (h : isBoundary s.chars offset = true) :
    ∃ p, s.positionOf offset = .ok p ∧ s.offsetOf p = .ok offset := by
  obtain ⟨front, back, hsplit, rfl⟩ := isBoundary_iff.mp h
  obtain ⟨n, column, hposition, hn, hoffset⟩ := leadsBack_byteSize front back 0
  rw [← hsplit] at hposition hn hoffset
  have hcolumn := lineOffset_positionIn hposition
  rw [Nat.zero_add] at hposition
  refine ⟨⟨n, column⟩, ?_, ?_⟩
  · have hle : ¬s.size < byteSize front := by simp [size, hsplit]
    simp only [positionOf, hle, if_false, lines, hposition]
  · have hline : s.line? n = some ((splitLines s.chars).getD n []) := by
      simp [line?, lines, List.getElem?_eq_getElem hn]
    -- Lowering the column leaves it where it is, so it is a boundary of its line.
    have hfloor := isBoundary_floorBoundary ((splitLines s.chars).getD n []) column
    have hsame : floorBoundary ((splitLines s.chars).getD n []) column = column := by omega
    rw [hsame] at hfloor
    simp only [offsetOf, hline, hfloor, if_true, lineStart, lines, hcolumn]

/-- An extent between two boundaries has a range of positions, and the strict conversion of that
range gives the extent back. -/
theorem exists_rangeOf {s : Source} {x : Extent} (hstart : isBoundary s.chars x.start = true)
    (hstop : isBoundary s.chars x.stop = true) (hle : x.start ≤ x.stop) :
    ∃ r, s.rangeOf x = .ok r ∧ s.extentOf r = .ok x := by
  obtain ⟨p, hp, hp'⟩ := exists_positionOf hstart
  obtain ⟨q, hq, hq'⟩ := exists_positionOf hstop
  refine ⟨⟨p, q⟩, ?_, ?_⟩
  · simp only [rangeOf, hp, hq]
    rfl
  · simp only [extentOf, hp', hq', bind, Except.bind, Nat.not_lt.mpr hle, if_false]

/-- A position that can be converted strictly leads to a boundary, and is lowered to the same
offset. -/
theorem isBoundary_of_offsetOf {s : Source} {p : Position} {offset : Nat}
    (h : s.offsetOf p = .ok offset) :
    isBoundary s.chars offset = true ∧ s.clamp p = offset := by
  unfold offsetOf at h
  split at h
  · simp at h
  · rename_i line hline
    split at h
    · rename_i hcolumn
      obtain rfl := Except.ok.inj h
      have hlt : p.line < (splitLines s.chars).length :=
        (List.getElem?_eq_some_iff.mp hline).1
      have hcontent : (splitLines s.chars).getD p.line [] = line := by
        rw [List.getD_eq_getElem?_getD, show (splitLines s.chars)[p.line]? = some line from hline]
        rfl
      constructor
      · rcases exists_split_line s.chars hlt with ⟨before, after, hsplit, hsize⟩
        rw [hcontent] at hsplit
        have hplace := isBoundary_append before after hcolumn
        rwa [← hsplit, hsize] at hplace
      · have hmin : min p.line (s.lineCount - 1) = p.line := by
          unfold lineCount lines
          omega
        rw [clamp, hmin, lines, hcontent, floorBoundary_of_isBoundary hcolumn]
    · simp at h

/-- The column of an existing line that a count of UTF-16 units leads to can be converted. -/
theorem exists_offsetOf_byteColumn {s : Source} {line units column : Nat}
    (h : s.byteColumn line units = .ok column) :
    ∃ offset, s.offsetOf ⟨line, column⟩ = .ok offset := by
  unfold byteColumn at h
  split at h
  · simp at h
  · rename_i content hline
    obtain rfl := Except.ok.inj h
    refine ⟨s.lineStart line + unitsToBytes content units, ?_⟩
    simp only [offsetOf, hline, isBoundary_unitsToBytes, if_true]

/-- A part of a source is cut out by its sizes. -/
theorem sliceOffsets_byteSize {s : Source} {before part after : List Char}
    (h : s.chars = before ++ part ++ after) :
    s.sliceOffsets ⟨byteSize before, byteSize before + byteSize part⟩ = .ok part := by
  have hsize : s.size = byteSize before + byteSize part + byteSize after := by
    rw [size, h, byteSize_append, byteSize_append]
  unfold sliceOffsets
  rw [if_neg (by simp), if_neg (by simp [hsize]), h, slice?_byteSize]

end Source
end StyleAtlas
