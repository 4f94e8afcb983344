import StyleAtlas.Proofs.Text.Positions

/-!
# The line table, and what is cut out of a text

The lines of a text can be found in one pass that notes the offset behind every line feed: each of
these offsets, and the start of the text, is where a line starts, and a line ends just before the
line feed that the next one starts behind.  Cut out of the text in this way, the lines are the text
split at its line feeds, so nothing of it is lost.  Nor is anything lost between two boundaries: an
extent becomes a range of positions, which becomes the extent again, and the text of the range is
made of the bytes between the two offsets.

Main results:

- Definition `Source.lineTable`, Theorem `Source.lineTable_eq`: the table holds the starts of lines.
- Theorem `Source.cutLine?_eq`: what is cut out between two entries of the table is a line.
- Theorem `Text.splitLines_eq_splitOn`: the lines are the text split at its line feeds.
- Theorem `Source.slice_eq_ok`: the text between two boundaries.
- Theorem `Source.lines_and_slices_lose_nothing`: lines and slices of a text.
-/

namespace StyleAtlas
namespace Text

/-! ## Splitting -/

/-- A text is split at its line feeds. -/
theorem splitLines_eq_splitOn (cs : List Char) : splitLines cs = cs.splitOn '\n' := by
  induction cs with
  | nil => rfl
  | cons c cs ih =>
      rcases exists_splitLines_eq_cons cs with ⟨line, lines, hlines⟩
      rw [List.splitOn, List.splitOnP_cons_eq_if_modifyHead, ← List.splitOn, ← ih]
      by_cases hc : c = '\n'
      · simp [hc, splitLines_newline]
      · simp [hc, splitLines_cons hc hlines, hlines]

/-- There is one line more than line feeds. -/
theorem length_splitLines (cs : List Char) : (splitLines cs).length = cs.count '\n' + 1 := by
  induction cs with
  | nil => rfl
  | cons c cs ih =>
      by_cases hc : c = '\n'
      · simp [hc, splitLines_newline, ih]
      · rcases exists_splitLines_eq_cons cs with ⟨line, lines, hlines⟩
        rw [hlines] at ih
        simp [hc, splitLines_cons hc hlines, ← ih]

/-! ## The offsets behind line feeds -/

/-- The offsets just behind the line feeds of a text that starts at an offset. -/
def feedEnds : (offset : Nat) → List Char → List Nat
  | _, [] => []
  | offset, c :: cs =>
      let behind := offset + c.utf8Size
      if c = '\n' then behind :: feedEnds behind cs else feedEnds behind cs

/-- The start of a text and the offsets behind its line feeds are where its lines start. -/
theorem cons_feedEnds (cs : List Char) (offset : Nat) :
    offset :: feedEnds offset cs =
      (List.range (splitLines cs).length).map fun n =>
        offset + lineOffset (splitLines cs) n := by
  induction cs generalizing offset with
  | nil => rfl
  | cons c cs ih =>
      have hrest := ih (offset + c.utf8Size)
      by_cases hc : c = '\n'
      · subst hc
        have hfeed : '\n'.utf8Size = 1 := by decide
        rw [feedEnds, if_pos rfl, hrest, splitLines_newline, List.length_cons,
          List.range_succ_eq_map, List.map_cons, List.map_map, lineOffset, Nat.add_zero]
        refine congrArg (offset :: ·) (List.map_congr_left fun n _ => ?_)
        simp only [Function.comp_apply, lineOffset, byteSize_nil, hfeed]
        omega
      · -- The first line gets longer, which moves the starts of all lines behind it.
        rcases exists_splitLines_eq_cons cs with ⟨line, lines, hlines⟩
        rw [hlines, List.length_cons, List.range_succ_eq_map, List.map_cons, List.map_map] at hrest
        rw [feedEnds, if_neg hc, (List.cons.inj hrest).2, splitLines_cons hc hlines,
          List.length_cons, List.range_succ_eq_map, List.map_cons, List.map_map, lineOffset,
          Nat.add_zero]
        refine congrArg (offset :: ·) (List.map_congr_left fun n _ => ?_)
        simp only [Function.comp_apply, lineOffset, byteSize_cons]
        omega

/-- All lines, each with a line feed behind it, take one byte more than the text. -/
theorem lineOffset_length (cs : List Char) :
    lineOffset (splitLines cs) (splitLines cs).length = byteSize cs + 1 := by
  induction cs with
  | nil => rfl
  | cons c cs ih =>
      by_cases hc : c = '\n'
      · have hfeed : '\n'.utf8Size = 1 := by decide
        rw [hc, splitLines_newline, List.length_cons, lineOffset, ih, byteSize_cons, hfeed]
        simp only [byteSize_nil]
        omega
      · rcases exists_splitLines_eq_cons cs with ⟨line, lines, hlines⟩
        rw [hlines, List.length_cons, lineOffset] at ih
        rw [splitLines_cons hc hlines, List.length_cons, lineOffset]
        simp only [byteSize_cons]
        omega

/-- The last line ends with the text. -/
theorem lineOffset_add_byteSize_last {cs : List Char} {n : Nat}
    (h : n + 1 = (splitLines cs).length) :
    lineOffset (splitLines cs) n + byteSize ((splitLines cs).getD n []) = byteSize cs := by
  have hsucc := lineOffset_succ (show n < (splitLines cs).length by omega)
  rw [h, lineOffset_length] at hsucc
  omega

/-! ## Bytes -/

/-- The bytes of a text. -/
def bytes (cs : List Char) : List UInt8 :=
  cs.flatMap String.utf8EncodeChar

/-- The bytes of two texts follow one another. -/
@[simp]
theorem bytes_append (cs ds : List Char) : bytes (cs ++ ds) = bytes cs ++ bytes ds :=
  List.flatMap_append

/-- The size of a text is the number of its bytes. -/
@[simp]
theorem length_bytes (cs : List Char) : (bytes cs).length = byteSize cs := by
  induction cs with
  | nil => rfl
  | cons c cs ih =>
      rw [bytes, List.flatMap_cons, List.length_append, String.length_utf8EncodeChar, ← bytes, ih,
        byteSize_cons]

/-- The bytes of a part of a text are those between its two ends. -/
theorem extract_bytes (before part after : List Char) :
    (bytes (before ++ part ++ after)).extract (byteSize before) (byteSize (before ++ part)) =
      bytes part := by
  have hsize : byteSize (before ++ part) - byteSize before = (bytes part).length := by simp
  rw [List.extract, hsize, bytes_append, bytes_append, List.append_assoc, ← length_bytes,
    List.drop_left, List.take_left]

/-- Two boundaries in order have a part of the text between them. -/
theorem exists_part {cs : List Char} {start stop : Nat} (hstart : isBoundary cs start = true)
    (hstop : isBoundary cs stop = true) (hle : start ≤ stop) :
    ∃ before part after, cs = before ++ part ++ after ∧ byteSize before = start ∧
      byteSize (before ++ part) = stop := by
  rcases isBoundary_iff.mp hstart with ⟨before, rest, rfl, rfl⟩
  rcases isBoundary_iff.mp hstop with ⟨front, after, hsplit, rfl⟩
  rcases List.append_eq_append_iff.mp hsplit with ⟨part, rfl, rfl⟩ | ⟨part, rfl, rfl⟩
  · exact ⟨before, part, after, by simp, rfl, rfl⟩
  · -- The second boundary is not before the first, so nothing stands between them.
    have hnil : part = [] := by
      cases part with
      | nil => rfl
      | cons c part =>
          have hpos := c.utf8Size_pos
          simp at hle
          omega
    subst hnil
    exact ⟨front, [], rest, by simp, by simp, by simp⟩

end Text

namespace Source

open Text

/-! ## The line table -/

/-- The offsets at which lines start, found by looking for line feeds. -/
def lineTable (s : Source) : List Nat :=
  0 :: feedEnds 0 s.chars

/-- The text from an entry of the line table to the line feed before the next one, or to the end. -/
def cutLine? (s : Source) (n : Nat) : Option (List Char) := do
  let start ← s.lineTable[n]?
  let stop := match s.lineTable[n + 1]? with
    | some next => next - 1
    | none => s.size
  slice? s.chars start stop

/-- The table lists the starts of all lines. -/
theorem lineTable_eq (s : Source) : s.lineTable = (List.range s.lineCount).map s.lineStart := by
  rw [lineTable, cons_feedEnds]
  simp only [Nat.zero_add]
  rfl

/-- The table has one entry for each line. -/
theorem length_lineTable (s : Source) : s.lineTable.length = s.lineCount := by
  simp [lineTable_eq]

/-- The entry of a line is its start. -/
theorem getElem?_lineTable {s : Source} {n : Nat} (h : n < s.lineCount) :
    s.lineTable[n]? = some (s.lineStart n) := by
  simp [lineTable_eq, h]

/-- What is cut out of the text with the line table is a line of it. -/
theorem cutLine?_eq (s : Source) (n : Nat) : s.cutLine? n = s.line? n := by
  rcases Nat.lt_or_ge n s.lineCount with hn | hn
  · have hline : s.line? n = some (s.lines.getD n []) := by
      simp [line?, List.getElem?_eq_getElem (show n < s.lines.length from hn)]
    -- On all lines but the last one a line feed stands between the end and the next start.
    have hstop : (match s.lineTable[n + 1]? with
        | some next => next - 1
        | none => s.size) = s.lineStart n + byteSize (s.lines.getD n []) := by
      rcases Nat.lt_or_ge (n + 1) s.lineCount with hnext | hlast
      · rw [getElem?_lineTable hnext]
        exact congrArg (· - 1) (lineOffset_succ hn)
      · rw [List.getElem?_eq_none (by rwa [length_lineTable])]
        exact (lineOffset_add_byteSize_last (Nat.le_antisymm hn hlast)).symm
    rcases exists_split_line s.chars hn with ⟨before, after, hsplit, hbefore⟩
    have hslice := slice?_byteSize before (s.lines.getD n []) after
    rw [show before ++ s.lines.getD n [] ++ after = s.chars from hsplit.symm, hbefore] at hslice
    rw [cutLine?, getElem?_lineTable hn, hline]
    simp only [Option.bind_eq_bind, Option.bind_some, hstop]
    exact hslice
  · have hnone : s.lineTable[n]? = none := List.getElem?_eq_none (by rwa [length_lineTable])
    have hline : s.line? n = none := List.getElem?_eq_none hn
    rw [cutLine?, hnone, hline]
    rfl

/-- Cutting out one line after the other gives all lines. -/
theorem filterMap_cutLine? (s : Source) :
    (List.range s.lineTable.length).filterMap s.cutLine? = s.lines := by
  have hcut : (List.range s.lineTable.length).filterMap s.cutLine? =
      (List.range s.lines.length).filterMap (some ∘ fun n => s.lines.getD n []) := by
    rw [length_lineTable]
    refine List.filterMap_congr fun n hn => ?_
    simp [cutLine?_eq, line?, List.getElem?_eq_getElem (List.mem_range.mp hn)]
  rw [hcut, List.filterMap_eq_map]
  apply List.ext_getElem
  · simp
  · intro n _ hn
    simp [List.getElem?_eq_getElem hn]

/-! ## Slices -/

/-- The text of a range that has an extent is the text of the extent. -/
theorem slice_of_extentOf {s : Source} {r : PositionRange} {x : Extent}
    (h : s.extentOf r = .ok x) : s.slice r = s.sliceOffsets x := by
  unfold extentOf at h
  unfold slice
  cases hstart : s.offsetOf r.start with
  | error e => simp [hstart, bind, Except.bind] at h
  | ok start =>
      cases hstop : s.offsetOf r.stop with
      | error e => simp [hstart, hstop, bind, Except.bind] at h
      | ok stop =>
          simp only [hstart, hstop, bind, Except.bind] at h ⊢
          split at h
          · simp at h
          · rw [Except.ok.inj h]

/-- Two boundaries in order have a range of positions, which leads back to them, and the text of
the range is made of the bytes between them. -/
theorem slice_eq_ok {s : Source} {x : Extent} (hstart : isBoundary s.chars x.start = true)
    (hstop : isBoundary s.chars x.stop = true) (hle : x.start ≤ x.stop) :
    ∃ r part, s.rangeOf x = .ok r ∧ s.extentOf r = .ok x ∧ s.slice r = .ok part ∧
      bytes part = (bytes s.chars).extract x.start x.stop := by
  rcases exists_rangeOf hstart hstop hle with ⟨r, hrange, hextent⟩
  rcases exists_part hstart hstop hle with ⟨before, part, after, hsplit, hbefore, hpart⟩
  refine ⟨r, part, hrange, hextent, ?_, ?_⟩
  · rw [slice_of_extentOf hextent, ← sliceOffsets_byteSize hsplit, ← byteSize_append, hbefore,
      hpart]
  · rw [← hbefore, ← hpart, hsplit, extract_bytes]

/-- Two positions in reversed order have no extent and no text. -/
theorem reversed_of_lt {s : Source} {p q : Position} {start stop : Nat}
    (hstart : s.offsetOf p = .ok start) (hstop : s.offsetOf q = .ok stop) (hlt : q < p) :
    s.extentOf ⟨p, q⟩ = .error (.reversedRange start stop) ∧
      s.slice ⟨p, q⟩ = .error (.reversedRange start stop) := by
  have hreversed : stop < start :=
    (position_lt_iff (offsetOf_eq_ok_iff.mp hstop).2 (offsetOf_eq_ok_iff.mp hstart).2).mp hlt
  constructor
  · simp [extentOf, hstart, hstop, bind, Except.bind, hreversed]
  · simp [slice, sliceOffsets, hstart, hstop, bind, Except.bind, hreversed]

/-- Lines and slices of any text.  Cut out with the line table, its lines are the text split at its
line feeds; joined with line feeds they are the text again, and there is one more of them than line
feeds.  Two boundaries in order have a range of positions, which leads back to them and has the
bytes between them as its text; and two positions that are accepted, but in reversed order, are
refused for this. -/
theorem lines_and_slices_lose_nothing (s : Source) :
    (List.range s.lineTable.length).filterMap s.cutLine? = s.lines ∧
    (∀ n, s.cutLine? n = s.line? n) ∧
    s.lines = s.chars.splitOn '\n' ∧
    ['\n'].intercalate s.lines = s.chars ∧
    s.lineCount = s.chars.count '\n' + 1 ∧
    (∀ x : Extent, isBoundary s.chars x.start = true → isBoundary s.chars x.stop = true →
      x.start ≤ x.stop → ∃ r part, s.rangeOf x = .ok r ∧ s.extentOf r = .ok x ∧
        s.slice r = .ok part ∧ bytes part = (bytes s.chars).extract x.start x.stop) ∧
    ∀ p q start stop, s.offsetOf p = .ok start → s.offsetOf q = .ok stop → q < p →
      s.extentOf ⟨p, q⟩ = .error (.reversedRange start stop) ∧
        s.slice ⟨p, q⟩ = .error (.reversedRange start stop) := by
  have hsplit : s.lines = s.chars.splitOn '\n' := splitLines_eq_splitOn s.chars
  refine ⟨s.filterMap_cutLine?, s.cutLine?_eq, hsplit, ?_, length_splitLines s.chars,
    fun _ => slice_eq_ok, fun _ _ _ _ => reversed_of_lt⟩
  rw [hsplit]
  exact List.intercalate_splitOn '\n'

end Source
end StyleAtlas
