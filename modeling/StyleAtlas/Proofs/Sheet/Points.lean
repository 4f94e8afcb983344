import StyleAtlas.Proofs.Text.Boundary
import StyleAtlas.Sheet.Point

/-!
# Counted places and the line table

A reader counts lines, columns and offsets character by character, while a source looks them up in
its lines.  The two agree at every place between two characters, so the span of a part of the text
converts to the extent of that part.

Main results:

- Theorem `Source.advance_origin`: the counters agree with the line table.
- Definition `Sheet.Point.Marks`: a place that stands at a visible character.
- Definition `Sheet.Span.Reads`: a span of a part of the text that starts and ends visibly.
- Theorem `Sheet.Span.exists_over?`: the span over a text reads the text up to its last visible
  character.
- Theorem `Sheet.Span.Reads.extent_eq`: the extent of such a span is the part.
-/

namespace StyleAtlas

open Text

/-! ## Counting along a text -/

namespace Sheet.Point

@[simp]
theorem advance_nil (p : Point) : p.advance [] = p :=
  rfl

/-- Characters lead on one by one. -/
@[simp]
theorem advance_cons (p : Point) (c : Char) (cs : List Char) :
    p.advance (c :: cs) = (p.next c).advance cs :=
  rfl

/-- Two texts lead on one after the other. -/
theorem advance_append (p : Point) (cs ds : List Char) :
    p.advance (cs ++ ds) = (p.advance cs).advance ds :=
  List.foldl_append

/-- A character moves the offset by its size. -/
@[simp]
theorem offset_next (p : Point) (c : Char) : (p.next c).offset = p.offset + c.utf8Size := by
  unfold next
  split <;> rfl

/-- Some characters move the offset by their size. -/
@[simp]
theorem offset_advance (p : Point) (cs : List Char) :
    (p.advance cs).offset = p.offset + byteSize cs := by
  induction cs generalizing p with
  | nil => rfl
  | cons c cs ih => rw [advance_cons, ih, offset_next, byteSize_cons, Nat.add_assoc]

/-- Counting along a text that starts on a given line: on that line columns add up, and behind a
line feed they start anew. -/
theorem advance_eq {cs ds : List Char} {p : Point} {first : Nat} {q : Position}
    (hline : p.line = first + 1)
    (hq : positionIn (splitLines (cs ++ ds)) first (byteSize cs) = q) :
    p.advance cs =
      ⟨q.line + 1, if q.line = first then p.column + q.column else q.column + 1,
        p.offset + byteSize cs⟩ := by
  induction cs generalizing p first q with
  | nil =>
      rcases exists_splitLines_eq_cons ([] ++ ds) with ⟨line, lines, hlines⟩
      have hstart : positionIn (line :: lines) first 0 = ⟨first, 0⟩ := by
        cases lines <;> simp [positionIn]
      rw [hlines, byteSize_nil, hstart] at hq
      simp [← hq, ← hline]
  | cons c cs ih =>
      rcases exists_splitLines_eq_cons (cs ++ ds) with ⟨line, lines, hlines⟩
      by_cases hc : c = '\n'
      · subst hc
        have hfeed : '\n'.utf8Size = 1 := by decide
        have hmove : positionIn (splitLines (cs ++ ds)) (first + 1) (byteSize cs) = q := by
          rw [← hq, List.cons_append, splitLines_newline, byteSize_cons, hfeed, hlines]
          simp [positionIn]
        have hlater := le_line_positionIn (splitLines (cs ++ ds)) (first + 1) (byteSize cs)
        rw [hmove] at hlater
        rw [advance_cons, ih (by simp [next, hline]) hmove, if_neg (show q.line ≠ first by omega)]
        -- A line starts in column one, so the two ways to count a column agree on it.
        simp [next, hfeed, Nat.add_comm q.column, Nat.add_assoc]
      · rw [List.cons_append, byteSize_cons, splitLines_cons hc hlines, positionIn_cons_add,
          ← hlines] at hq
        have hstay : (p.next c).line = first + 1 := by simp [next, hc, hline]
        rw [advance_cons, ih hstay rfl, ← hq]
        by_cases hsame : (positionIn (splitLines (cs ++ ds)) first (byteSize cs)).line = first
        · simp [next, hc, hsame, Nat.add_assoc]
        · simp [next, hc, hsame, Nat.add_assoc]

end Sheet.Point

namespace Source

/-- The place of an offset, looked up in the lines of the source. -/
def pointAt (s : Source) (offset : Nat) : Sheet.Point :=
  ⟨(positionIn s.lines 0 offset).line + 1, (positionIn s.lines 0 offset).column + 1, offset⟩

/-- Counting from the start of a source leads to the places that its lines give. -/
theorem advance_origin {s : Source} {cs ds : List Char} (h : s.chars = cs ++ ds) :
    Sheet.Point.origin.advance cs = s.pointAt (byteSize cs) := by
  have hlookup : positionIn (splitLines (cs ++ ds)) 0 (byteSize cs) =
      positionIn s.lines 0 (byteSize cs) := by rw [lines, h]
  have hcount : Sheet.Point.origin.line = 0 + 1 := rfl
  rw [Sheet.Point.advance_eq hcount hlookup, pointAt]
  simp [Sheet.Point.origin, Nat.add_comm]

/-- Counting on from a place between two characters. -/
theorem advance_pointAt {s : Source} {before part after : List Char}
    (h : s.chars = before ++ part ++ after) :
    (s.pointAt (byteSize before)).advance part = s.pointAt (byteSize (before ++ part)) := by
  rw [← advance_origin h, Sheet.Point.advance_append]
  congr 1
  exact (advance_origin (by simpa using h)).symm

/-- The place behind a part that ends in a character is that of the end of the part. -/
theorem next_advance_pointAt {s : Source} {before part after : List Char} {c : Char}
    (h : s.chars = before ++ (part ++ [c]) ++ after) :
    ((s.pointAt (byteSize before)).advance part).next c =
      s.pointAt (byteSize (before ++ (part ++ [c]))) := by
  rw [← advance_pointAt h, Sheet.Point.advance_append]
  rfl

/-- The place of an offset of the text is the position of that offset, counted from one. -/
theorem positionOf_pointAt {s : Source} {cs ds : List Char} (h : s.chars = cs ++ ds) :
    s.positionOf (byteSize cs) = .ok (s.pointAt (byteSize cs)).position := by
  have hle : ¬s.size < byteSize cs := by simp [size, h]
  simp [positionOf, hle, pointAt, Sheet.Point.position]

/-- The position of a boundary leads back to it. -/
theorem clamp_pointAt {s : Source} {cs ds : List Char} (h : s.chars = cs ++ ds) :
    s.clamp (s.pointAt (byteSize cs)).position = byteSize cs :=
  clamp_positionOf h (positionOf_pointAt h)

end Source

/-! ## Spans of visible parts -/

namespace Sheet

/-- A place stands at a visible character of a source: its line and its column are those that the
source gives for its offset, counted from one. -/
structure Point.Marks (source : Source) (p : Point) (c : Char) : Prop where
  char : ∃ before after, source.chars = before ++ c :: after ∧ byteSize before = p.offset
  visible : isBlank c = false
  position : source.positionOf p.offset = .ok ⟨p.line - 1, p.column - 1⟩
  line_pos : 0 < p.line
  column_pos : 0 < p.column

/-- The place of a visible character marks it. -/
theorem Point.marks_pointAt {source : Source} {before after : List Char} {c : Char}
    (hsplit : source.chars = before ++ c :: after) (hc : isBlank c = false) :
    (source.pointAt (byteSize before)).Marks source c :=
  ⟨⟨before, after, hsplit, rfl⟩, hc, Source.positionOf_pointAt hsplit, Nat.succ_pos _,
    Nat.succ_pos _⟩

/-- The place of the last visible character of a text: what follows that character is blank. -/
theorem Point.lastVisible?_cases (p : Point) (cs : List Char) :
    (p.lastVisible? cs = none ∧ ∀ c ∈ cs, isBlank c = true) ∨
      ∃ init c blanks, cs = init ++ c :: blanks ∧ isBlank c = false ∧
        (∀ d ∈ blanks, isBlank d = true) ∧ p.lastVisible? cs = some (p.advance init) := by
  induction cs generalizing p with
  | nil => exact Or.inl ⟨rfl, by simp⟩
  | cons c cs ih =>
      rcases ih (p.next c) with ⟨hnone, hblanks⟩ | ⟨init, d, blanks, rfl, hd, hblanks, hlast⟩
      · by_cases hc : isBlank c = true
        · exact Or.inl ⟨by simp [lastVisible?, hnone, hc], by simpa [hc] using hblanks⟩
        · refine Or.inr ⟨[], c, cs, rfl, by simpa using hc, hblanks, ?_⟩
          simp [lastVisible?, hnone, hc]
      · refine Or.inr ⟨c :: init, d, blanks, rfl, hd, hblanks, ?_⟩
        simp [lastVisible?, hlast]

namespace Span

/-- A span reads a part of the source: the part starts and ends in a visible character, and the
span has the places of these two characters. -/
structure Reads (source : Source) (span : Span) (before part after : List Char) : Prop where
  split : source.chars = before ++ part ++ after
  head_visible : ∃ c rest, part = c :: rest ∧ isBlank c = false
  first_eq : span.first = source.pointAt (byteSize before)
  last_eq : ∃ init c, part = init ++ [c] ∧ isBlank c = false ∧
    span.last = source.pointAt (byteSize (before ++ init))

variable {source : Source} {span : Span} {before part after : List Char}

/-- What a span reads is not empty. -/
theorem Reads.byteSize_pos (h : span.Reads source before part after) : 0 < byteSize part := by
  rcases h.head_visible with ⟨c, rest, rfl, -⟩
  have := c.utf8Size_pos
  simp
  omega

/-- A span starts where the part does that it reads. -/
theorem Reads.first_offset (h : span.Reads source before part after) :
    span.first.offset = byteSize before := by
  rw [h.first_eq, Source.pointAt]

/-- The ends of a span that reads a part stand at the ends of that part. -/
theorem Reads.exists_marks (h : span.Reads source before part after) :
    ∃ first last, span.first.Marks source first ∧ span.last.Marks source last ∧
      byteSize (before ++ part) = span.last.offset + last.utf8Size := by
  rcases h.head_visible with ⟨first, rest, hfirst, hvisible⟩
  rcases h.last_eq with ⟨init, last, hlast, hvisible', hplace⟩
  have hsplit : source.chars = before ++ first :: (rest ++ after) := by
    rw [h.split, hfirst, List.append_assoc, List.cons_append]
  have hsplit' : source.chars = (before ++ init) ++ last :: after := by
    rw [h.split, hlast]
    simp
  refine ⟨first, last, ?_, ?_, ?_⟩
  · rw [h.first_eq]
    exact Point.marks_pointAt hsplit hvisible
  · rw [hplace]
    exact Point.marks_pointAt hsplit' hvisible'
  · rw [hplace, hlast]
    simp [Source.pointAt, Nat.add_assoc]

/-- The extent of a span that reads a part is the extent of that part. -/
theorem Reads.extent_eq (h : span.Reads source before part after) :
    span.extent source = ⟨byteSize before, byteSize before + byteSize part⟩ := by
  rcases h.last_eq with ⟨init, c, rfl, -, hlast⟩
  have hfirst : source.clamp span.first.position = byteSize before := by
    rw [h.first_eq]
    exact Source.clamp_pointAt (by simpa using h.split)
  have hsplit : source.chars = (before ++ init) ++ c :: after := by simp [h.split]
  have hend : source.clamp span.last.position = byteSize (before ++ init) := by
    rw [hlast]
    exact Source.clamp_pointAt hsplit
  have hchars : charsFrom source.chars (byteSize (before ++ init)) = c :: after := by
    rw [hsplit, charsFrom_byteSize]
  simp only [extent, hfirst, hend, hchars]
  simp [Nat.add_assoc]

/-- The span over a text that starts visibly reads it up to its last visible character. -/
theorem exists_over? {c : Char} {cs : List Char}
    (hsplit : source.chars = before ++ c :: cs ++ after) (hc : isBlank c = false) :
    ∃ span part blanks, over? (source.pointAt (byteSize before)) (c :: cs) = some span ∧
      c :: cs = part ++ blanks ∧ (∀ d ∈ blanks, isBlank d = true) ∧
      span.Reads source before part (blanks ++ after) := by
  rcases Point.lastVisible?_cases (source.pointAt (byteSize before)) (c :: cs) with
    ⟨-, hblanks⟩ | ⟨init, d, blanks, htext, hd, hblanks, hlast⟩
  · simp [hc] at hblanks
  · refine ⟨_, init ++ [d], blanks, by rw [over?, hlast]; rfl, by simp [htext], hblanks, ?_⟩
    have hpart : source.chars = before ++ init ++ (d :: blanks ++ after) := by
      simp [hsplit, htext]
    refine ⟨by simp [hpart], ?_, rfl, init, d, rfl, hd, ?_⟩
    · cases init with
      | nil => exact ⟨d, [], rfl, hd⟩
      | cons e init =>
          obtain rfl : c = e := by simpa using congrArg List.head? htext
          exact ⟨c, init ++ [d], rfl, hc⟩
    · exact Source.advance_pointAt hpart

end Span
end Sheet
end StyleAtlas
