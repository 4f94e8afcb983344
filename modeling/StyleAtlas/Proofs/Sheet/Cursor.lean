import Mathlib.Data.List.TakeWhile
import StyleAtlas.Proofs.Loop
import StyleAtlas.Proofs.Sheet.Layout

/-!
# A cursor over a text

A reader that descends into a sheet moves a cursor over the text, one character at a time, and cuts
the text at the cursor whenever it looks at what comes next.  A cut off a character boundary fails,
and so does a loop that never ends.  Where a cursor stands between two characters, none of its loops
fails: each one leaves the cursor behind a part of the text, which is a token, a run of characters,
or what the loop was told to pass over.

Main definitions:

- `Sheet.Cursor`, `Sheet.Cursor.advance`: a cursor, and its move over the next character.
- `Sheet.Cursor.skipBlanks`, `Sheet.Cursor.advanceTo`, `Sheet.Cursor.readKeyword`,
  `Sheet.Cursor.skipComment`, `Sheet.Cursor.skipString`: loops over parts of the text.
- `Sheet.Cursor.Stands`: what comes next at a cursor between two characters.

Main results:

- Theorems `Sheet.Cursor.Stands.skipComment` and `Sheet.Cursor.Stands.skipString`: tokens are
  skipped.
-/

namespace StyleAtlas

/-! ## Cuts -/

namespace Text

/-- A text up to a byte count; refused off a boundary. -/
def sliceTo? (cs : List Char) (n : Nat) : Option (List Char) :=
  (splitAt? cs n).map Prod.fst

/-- A text from a byte count on; refused off a boundary. -/
def sliceFrom? (cs : List Char) (n : Nat) : Option (List Char) :=
  (splitAt? cs n).map Prod.snd

/-- A text up to the end of its front is the front. -/
theorem sliceTo?_byteSize (front back : List Char) :
    sliceTo? (front ++ back) (byteSize front) = some front := by
  rw [sliceTo?, splitAt?_byteSize, Option.map_some]

/-- A text from the end of its front on is its back. -/
theorem sliceFrom?_byteSize (front back : List Char) :
    sliceFrom? (front ++ back) (byteSize front) = some back := by
  rw [sliceFrom?, splitAt?_byteSize, Option.map_some]

end Text

namespace Sheet

open Text (byteSize isBlank isBoundary)
open Token (lex lexFrom textOf)

/-- A place in a text, and the place of the last visible character before it. -/
structure Cursor where
  point : Point
  lastVisible : Option Point
deriving DecidableEq, Repr

namespace Cursor

/-- The cursor at the start of a text. -/
def start : Cursor :=
  ⟨Point.origin, none⟩

/-- The cursor behind a character. -/
def past (cursor : Cursor) (c : Char) : Cursor :=
  ⟨cursor.point.next c, if isBlank c then cursor.lastVisible else some cursor.point⟩

/-- The cursor behind some characters. -/
def pastAll (cursor : Cursor) (cs : List Char) : Cursor :=
  cs.foldl past cursor

/-- The span from a place to the last visible character, unless that comes before the place. -/
def spanSince (cursor : Cursor) (start : Point) : Option Span :=
  (cursor.lastVisible.filter fun last => start.offset ≤ last.offset).map fun last => ⟨start, last⟩

variable (text : List Char)

/-! ## Looking and moving -/

/-- What is left of the text at a cursor. -/
def rest? (cursor : Cursor) : Option (List Char) :=
  Text.sliceFrom? text cursor.point.offset

/-- The character at a cursor, where the text does not end there. -/
def current? (cursor : Cursor) : Option (Option Char) :=
  (cursor.rest? text).map List.head?

/-- Whether the text goes on with some characters at a cursor. -/
def startsWith? (cursor : Cursor) (front : List Char) : Option Bool :=
  (cursor.rest? text).map front.isPrefixOf

/-- Move over the character at the cursor; at the end of the text the cursor stays. -/
def advance (cursor : Cursor) : Option Cursor := do
  match ← cursor.current? text with
  | some c => some (cursor.past c)
  | none => some cursor

/-- One character of a run of blanks. -/
def blankRound (cursor : Cursor) : Option (Cursor ⊕ Cursor) := do
  match ← cursor.current? text with
  | some c => if isBlank c then (cursor.advance text).map .inl else some (.inr cursor)
  | none => some (.inr cursor)

/-- Move over blanks. -/
def skipBlanks (cursor : Cursor) : Option Cursor :=
  loop (blankRound text) cursor

/-- One character in front of an offset. -/
def stopRound (stop : Nat) (cursor : Cursor) : Option (Cursor ⊕ Cursor) :=
  if cursor.point.offset < stop then do
    match ← cursor.current? text with
    | some _ => (cursor.advance text).map .inl
    | none => some (.inr cursor)
  else some (.inr cursor)

/-- Move to an offset, or to the end of the text. -/
def advanceTo (stop : Nat) (cursor : Cursor) : Option Cursor :=
  loop (stopRound text stop) cursor

/-- One character of a keyword, behind those that were read. -/
def keywordRound (s : Cursor × List Char) :
    Option ((Cursor × List Char) ⊕ (Cursor × List Char)) := do
  match ← s.1.current? text with
  | some c =>
      if isKeywordChar c then (s.1.advance text).map fun next => .inl (next, s.2 ++ [c])
      else some (.inr s)
  | none => some (.inr s)

/-- Read a keyword. -/
def readKeyword (cursor : Cursor) : Option (Cursor × List Char) :=
  loop (keywordRound text) (cursor, [])

/-- One character of a comment that starts at a place, or its end. -/
def commentRound (start : Point) (cursor : Cursor) :
    Option (Cursor ⊕ Except SheetError Cursor) := do
  match ← cursor.current? text with
  | none => some (.inr (.error (.unclosedComment start)))
  | some _ =>
      if ← cursor.startsWith? text ['*', '/'] then
        let slash ← cursor.advance text
        (slash.advance text).map fun next => .inr (.ok next)
      else (cursor.advance text).map .inl

/-- Move over the comment that opens at a cursor. -/
def skipComment (cursor : Cursor) : Option (Except SheetError Cursor) := do
  let star ← cursor.advance text
  let inside ← star.advance text
  loop (commentRound text cursor.point) inside

/-- One character of a string that starts at a place, with the one it escapes, or its end. -/
def stringRound (start : Point) (quote : Char) (cursor : Cursor) :
    Option (Cursor ⊕ Except SheetError Cursor) := do
  match ← cursor.current? text with
  | none => some (.inr (.error (.unclosedString start)))
  | some c =>
      let next ← cursor.advance text
      if c = quote then some (.inr (.ok next))
      else if c = '\\' then (next.advance text).map .inl
      else some (.inl next)

/-- Move over the string whose opening quote is at a cursor. -/
def skipString (cursor : Cursor) : Option (Except SheetError Cursor) := do
  match ← cursor.current? text with
  | none => some (.ok cursor)
  | some quote =>
      let inside ← cursor.advance text
      loop (stringRound text cursor.point quote) inside

/-! ## Places behind parts of the text -/

variable {text} {cursor : Cursor} {cs part back : List Char} {c : Char}

@[simp]
theorem pastAll_nil (cursor : Cursor) : cursor.pastAll [] = cursor :=
  rfl

/-- A cursor passes over characters one by one. -/
@[simp]
theorem pastAll_cons (cursor : Cursor) (c : Char) (cs : List Char) :
    cursor.pastAll (c :: cs) = (cursor.past c).pastAll cs :=
  rfl

/-- A cursor passes over two texts one after the other. -/
theorem pastAll_append (cursor : Cursor) (cs ds : List Char) :
    cursor.pastAll (cs ++ ds) = (cursor.pastAll cs).pastAll ds :=
  List.foldl_append

/-- The place behind a character is the next one. -/
@[simp]
theorem point_past (cursor : Cursor) (c : Char) : (cursor.past c).point = cursor.point.next c :=
  rfl

/-- The place behind some characters is the one that they lead to. -/
@[simp]
theorem point_pastAll (cursor : Cursor) (cs : List Char) :
    (cursor.pastAll cs).point = cursor.point.advance cs := by
  induction cs generalizing cursor with
  | nil => rfl
  | cons c cs ih => rw [pastAll_cons, ih, point_past, Point.advance_cons]

/-- A cursor that passes over something moves on. -/
theorem offset_lt_pastAll (hne : part ≠ []) :
    cursor.point.offset < (cursor.pastAll part).point.offset := by
  cases part with
  | nil => exact absurd rfl hne
  | cons c cs =>
      have hpos := c.utf8Size_pos
      rw [point_pastAll, Point.offset_advance, Text.byteSize_cons]
      omega

/-- Behind some characters, the last visible one is among them, or none of them is visible. -/
theorem lastVisible_pastAll (cursor : Cursor) (cs : List Char) :
    (cursor.pastAll cs).lastVisible = (cursor.point.lastVisible? cs).or cursor.lastVisible := by
  induction cs generalizing cursor with
  | nil => rfl
  | cons c cs ih =>
      rw [pastAll_cons, ih, point_past, Point.lastVisible?, past]
      cases (cursor.point.next c).lastVisible? cs with
      | some last => rfl
      | none => by_cases hc : isBlank c = true <;> simp [hc]

/-- Behind a text that starts visibly, the span since its start is the span over it. -/
theorem spanSince_pastAll (hc : isBlank c = false) :
    (cursor.pastAll (c :: cs)).spanSince cursor.point = Span.over? cursor.point (c :: cs) := by
  rcases Point.lastVisible?_cases cursor.point (c :: cs) with
    ⟨-, hblanks⟩ | ⟨init, d, blanks, -, -, -, hlast⟩
  · simp [hc] at hblanks
  · rw [spanSince, lastVisible_pastAll, Span.over?, hlast]
    simp [Option.filter]

/-- Behind a visible character, the span since a place before it ends with it. -/
theorem spanSince_past {first : Point} (hc : isBlank c = false)
    (hle : first.offset ≤ cursor.point.offset) :
    (cursor.past c).spanSince first = some ⟨first, cursor.point⟩ := by
  simp [spanSince, past, hc, Option.filter, hle]

/-! ## What comes next -/

/-- A cursor stands between two characters of a text, with some characters still to come. -/
def Stands (text : List Char) (cursor : Cursor) (rest : List Char) : Prop :=
  ∃ before, text = before ++ rest ∧ cursor.point.offset = byteSize before

/-- A cursor stands at the start of a text, which is still to come. -/
theorem stands_start (text : List Char) : Stands text start text :=
  ⟨[], rfl, rfl⟩

/-- A cursor stands wherever its offset is a boundary of the text. -/
theorem exists_stands (h : isBoundary text cursor.point.offset = true) :
    ∃ rest, Stands text cursor rest := by
  rcases Text.isBoundary_iff.mp h with ⟨before, rest, htext, hsize⟩
  exact ⟨rest, before, htext, hsize.symm⟩

namespace Stands

/-- A cursor that stands in a text is at a boundary of it. -/
theorem isBoundary (h : Stands text cursor cs) : isBoundary text cursor.point.offset = true := by
  rcases h with ⟨before, rfl, hoffset⟩
  rw [hoffset]
  exact Text.isBoundary_byteSize before cs

/-- A cursor that passes over what comes stands behind it. -/
theorem pastAll (h : Stands text cursor (part ++ back)) :
    Stands text (cursor.pastAll part) back := by
  rcases h with ⟨before, rfl, hoffset⟩
  exact ⟨before ++ part, by simp, by simp [hoffset]⟩

/-- A cursor that passes over the next character stands behind it. -/
theorem past (h : Stands text cursor (c :: cs)) : Stands text (cursor.past c) cs :=
  pastAll (show Stands text cursor ([c] ++ cs) from h)

/-- What is left at a cursor is what is still to come. -/
theorem rest? (h : Stands text cursor cs) : cursor.rest? text = some cs := by
  rcases h with ⟨before, rfl, hoffset⟩
  rw [Cursor.rest?, hoffset, Text.sliceFrom?_byteSize]

/-- The character at a cursor is the first that is still to come. -/
theorem current? (h : Stands text cursor cs) : cursor.current? text = some cs.head? := by
  rw [Cursor.current?, h.rest?, Option.map_some]

/-- What a text goes on with is the front of what is still to come. -/
theorem startsWith? (h : Stands text cursor cs) (front : List Char) :
    cursor.startsWith? text front = some (front.isPrefixOf cs) := by
  rw [Cursor.startsWith?, h.rest?, Option.map_some]

/-- A move goes over the next character. -/
theorem advance (h : Stands text cursor (c :: cs)) :
    cursor.advance text = some (cursor.past c) := by
  simp [Cursor.advance, h.current?]

/-- A move at the end of the text goes nowhere. -/
theorem advance_end (h : Stands text cursor []) : cursor.advance text = some cursor := by
  simp [Cursor.advance, h.current?]

/-- The part between a cursor and a place behind it can be cut out. -/
theorem slice? (h : Stands text cursor (part ++ back)) :
    Text.slice? text cursor.point.offset (cursor.point.offset + byteSize part) = some part := by
  rcases h with ⟨before, rfl, hoffset⟩
  rw [hoffset, ← List.append_assoc, Text.slice?_byteSize]

/-! ## Runs of characters -/

/-- Moving over blanks ends at the first visible character. -/
theorem skipBlanks (h : Stands text cursor cs) :
    cursor.skipBlanks text = some (cursor.pastAll (cs.takeWhile isBlank)) := by
  induction cs generalizing cursor with
  | nil => exact loop_answer (by simp [blankRound, h.current?])
  | cons c cs ih =>
      by_cases hc : isBlank c = true
      · rw [List.takeWhile_cons_of_pos hc, pastAll_cons, ← ih h.past]
        exact loop_next (by simp [blankRound, h.current?, hc, h.advance])
      · rw [List.takeWhile_cons_of_neg hc]
        exact loop_answer (by simp [blankRound, h.current?, hc])

/-- Moving to an offset ends there. -/
theorem advanceTo (h : Stands text cursor (part ++ back)) :
    cursor.advanceTo text (cursor.point.offset + byteSize part) = some (cursor.pastAll part) := by
  generalize hstop : cursor.point.offset + byteSize part = stop
  induction part generalizing cursor with
  | nil => exact loop_answer (by simp [stopRound, ← hstop])
  | cons c part ih =>
      have hpos := c.utf8Size_pos
      rw [Text.byteSize_cons] at hstop
      have hlt : cursor.point.offset < stop := by omega
      rw [pastAll_cons, ← ih h.past (by simp; omega)]
      exact loop_next (by simp [stopRound, hlt, h.current?, h.advance])

/-- A keyword is read in full, and the cursor is behind it. -/
theorem readKeyword (h : Stands text cursor cs) :
    cursor.readKeyword text =
      some (cursor.pastAll (cs.takeWhile isKeywordChar), cs.takeWhile isKeywordChar) := by
  have hread : ∀ read, loop (keywordRound text) (cursor, read) =
      some (cursor.pastAll (cs.takeWhile isKeywordChar),
        read ++ cs.takeWhile isKeywordChar) := by
    induction cs generalizing cursor with
    | nil => exact fun read => loop_answer (by simp [keywordRound, h.current?])
    | cons c cs ih =>
        intro read
        by_cases hc : isKeywordChar c = true
        · have hbehind := ih h.past (read ++ [c])
          rw [List.append_assoc, List.singleton_append] at hbehind
          rw [List.takeWhile_cons_of_pos hc, pastAll_cons, ← hbehind]
          exact loop_next (by simp [keywordRound, h.current?, hc, h.advance])
        · rw [List.takeWhile_cons_of_neg hc]
          exact loop_answer (by simp [keywordRound, h.current?, hc])
  exact hread []

end Stands

/-! ## Comments and strings -/

/-- How a move over the rest of a token may end, of which some was read: the token is left open at
the end of the text, or the cursor is behind it. -/
inductive SkipsRest (token : List Char → Bool → Token) (error : SheetError) (cursor : Cursor)
    (mode : Token.Mode) : List Char → Except SheetError Cursor → Prop where
  | unclosed {cs : List Char}
      (hlex : lexFrom .spanning mode cs = [token (mode.text ++ cs) false]) :
      SkipsRest token error cursor mode cs (.error error)
  | closed (part back : List Char)
      (hlex : lexFrom .spanning mode (part ++ back) =
        token (mode.text ++ part) true :: lex .spanning back) :
      SkipsRest token error cursor mode (part ++ back) (.ok (cursor.pastAll part))

/-- What was read may stand in front of what skips the rest of the token. -/
theorem SkipsRest.prepend {token : List Char → Bool → Token} {error : SheetError}
    {mode mode' : Token.Mode} {answer : Except SheetError Cursor} (front : List Char)
    (h : SkipsRest token error (cursor.pastAll front) mode' cs answer)
    (hlex : lexFrom .spanning mode (front ++ cs) = lexFrom .spanning mode' cs)
    (htext : mode'.text = mode.text ++ front) :
    SkipsRest token error cursor mode (front ++ cs) answer := by
  cases h with
  | unclosed hrest =>
      refine .unclosed ?_
      rw [hlex, hrest, htext, List.append_assoc]
  | closed part back hrest =>
      rw [← pastAll_append, ← List.append_assoc]
      refine .closed _ _ ?_
      rw [List.append_assoc, hlex, hrest, htext, List.append_assoc]

/-- Moving over the rest of a comment ends with the comment. -/
theorem skipsRest_comment (first : Point) {cs : List Char} (h : Stands text cursor cs)
    (read : List Char) :
    ∃ answer, loop (commentRound text first) cursor = some answer ∧
      SkipsRest .comment (.unclosedComment first) cursor (.inComment read) cs answer := by
  induction cs generalizing cursor read with
  | nil =>
      refine ⟨_, loop_answer (by simp [commentRound, h.current?]), .unclosed ?_⟩
      simp [lexFrom, Token.Mode.text]
  | cons c cs ih =>
      by_cases hclose : ['*', '/'].isPrefixOf (c :: cs) = true
      · rcases List.isPrefixOf_iff_prefix.mp hclose with ⟨back, hback⟩
        rw [← hback] at h ⊢
        have hslash : Stands text (cursor.past '*') ('/' :: back) := h.past
        refine ⟨.ok (cursor.pastAll ['*', '/']), loop_answer ?_, .closed ['*', '/'] back ?_⟩
        · simp [commentRound, h.current?, h.startsWith?, h.advance, hslash.advance]
        · simp [lexFrom, lex, Token.Mode.text]
      · rcases ih h.past (c :: read) with ⟨answer, hanswer, hskips⟩
        refine ⟨answer, ?_, SkipsRest.prepend [c] hskips ?_ (by simp [Token.Mode.text])⟩
        · rw [← hanswer]
          exact loop_next (by simp [commentRound, h.current?, h.startsWith?, hclose, h.advance])
        · rw [List.singleton_append, lexFrom]
          rintro others rfl rfl
          exact hclose rfl

/-- Moving over the rest of a string ends with the string. -/
theorem skipsRest_string (first : Point) {quote : Char} (hslash : quote ≠ '\\') {cs : List Char}
    (h : Stands text cursor cs) (read : List Char) :
    ∃ answer, loop (stringRound text first quote) cursor = some answer ∧
      SkipsRest .quoted (.unclosedString first) cursor (.inString quote read) cs answer := by
  generalize hmode : Token.Mode.inString quote read = mode
  generalize hquoting : Quoting.spanning = quoting
  fun_induction lexFrom quoting mode cs generalizing read cursor with
  | case8 _ read =>
      refine ⟨_, loop_answer (by simp [stringRound, h.current?]), .unclosed ?_⟩
      simp [lexFrom, Token.Mode.text]
  | case9 _ read c cs ih =>
      obtain ⟨rfl, rfl⟩ := Token.Mode.inString.inj hmode
      have hescaped : Stands text (cursor.past '\\') (c :: cs) := h.past
      rcases ih hescaped.past _ rfl with ⟨answer, hanswer, hskips⟩
      refine ⟨answer, ?_, SkipsRest.prepend ['\\', c] hskips ?_ (by simp [Token.Mode.text])⟩
      · rw [← hanswer]
        exact loop_next (by
          simp [stringRound, h.current?, h.advance, hslash.symm, hescaped.advance])
      · rw [List.cons_append, List.singleton_append, lexFrom]
  | case10 read c cs hescape ih =>
      obtain ⟨rfl, rfl⟩ := Token.Mode.inString.inj hmode
      refine ⟨.ok (cursor.pastAll [quote]), loop_answer ?_,
        .closed [quote] cs ?_⟩
      · simp [stringRound, h.current?, h.advance]
      · rw [List.singleton_append, lexFrom, if_pos rfl]
        · simp [lex, Token.Mode.text]
        · exact hescape
  | case11 _ read c cs hescape hne hbreak ih => simp [← hquoting] at hbreak
  | case12 _ read c cs hescape hne hbreak ih =>
      obtain ⟨rfl, rfl⟩ := Token.Mode.inString.inj hmode
      rcases ih h.past _ rfl with ⟨answer, hanswer, hskips⟩
      refine ⟨answer, ?_, SkipsRest.prepend [c] hskips ?_ (by simp [Token.Mode.text])⟩
      · rw [← hanswer]
        by_cases hc : c = '\\'
        · -- A backslash at the end of the text escapes nothing.
          have hnil : cs = [] := by
            cases cs with
            | nil => rfl
            | cons e cs => exact absurd rfl (hescape e cs hc)
          subst hc hnil
          have hend : Stands text (cursor.past '\\') [] := h.past
          exact loop_next (by simp [stringRound, h.current?, h.advance, hne, hend.advance_end])
        · exact loop_next (by simp [stringRound, h.current?, h.advance, hne, hc])
      · rw [List.singleton_append, lexFrom, if_neg hne, if_neg (by simp)]
        exact hescape
  | _ => cases hmode

/-- How a move over a token ends: the token is left open at the end of the text, which is an error,
or the cursor is behind it. -/
inductive Skips (token : List Char → Bool → Token) (cursor : Cursor) :
    List Char → Except SheetError Cursor → Prop where
  | unclosed {rest : List Char} {error : SheetError}
      (hlex : lex .spanning rest = [token rest false])
      (herror : fault? cursor.point (token rest false) = some error) :
      Skips token cursor rest (.error error)
  | closed (content back : List Char)
      (hlex : lex .spanning (content ++ back) = token content true :: lex .spanning back) :
      Skips token cursor (content ++ back) (.ok (cursor.pastAll content))

/-- A token of which the opening was read is skipped if its rest is. -/
theorem SkipsRest.skips (mode : Token.Mode) {token : List Char → Bool → Token}
    {error : SheetError} {cs : List Char} {answer : Except SheetError Cursor}
    (h : SkipsRest token error (cursor.pastAll mode.text) mode cs answer)
    (hlex : lex .spanning (mode.text ++ cs) = lexFrom .spanning mode cs)
    (herror : ∀ content, fault? cursor.point (token content false) = some error) :
    Skips token cursor (mode.text ++ cs) answer := by
  cases h with
  | unclosed hrest => exact .unclosed (by rw [hlex, hrest]) (herror _)
  | closed part back hrest =>
      rw [← pastAll_append, ← List.append_assoc]
      refine .closed _ _ ?_
      rw [List.append_assoc, hlex, hrest]

/-- The comment at a cursor is skipped as a token. -/
theorem Stands.skipComment {cs : List Char} (h : Stands text cursor ('/' :: '*' :: cs)) :
    ∃ answer, cursor.skipComment text = some answer ∧
      Skips .comment cursor ('/' :: '*' :: cs) answer := by
  have hstar : Stands text (cursor.past '/') ('*' :: cs) := h.past
  rcases skipsRest_comment cursor.point hstar.past ['*', '/'] with ⟨answer, hanswer, hskips⟩
  refine ⟨answer, ?_, hskips.skips (.inComment ['*', '/'])
    (by simp [lex, lexFrom, Token.Mode.text]) fun _ => rfl⟩
  simp [Cursor.skipComment, h.advance, hstar.advance, hanswer]

/-- The string at a cursor is skipped as a token. -/
theorem Stands.skipString {quote : Char} (hquote : Token.isQuote quote = true) {cs : List Char}
    (h : Stands text cursor (quote :: cs)) :
    ∃ answer, cursor.skipString text = some answer ∧
      Skips .quoted cursor (quote :: cs) answer := by
  have hslash : quote ≠ '\\' := by
    rintro rfl
    exact absurd hquote (by decide)
  rcases skipsRest_string cursor.point hslash h.past [quote] with ⟨answer, hanswer, hskips⟩
  refine ⟨answer, ?_, hskips.skips (.inString quote [quote]) ?_ fun _ => rfl⟩
  · simp [Cursor.skipString, h.current?, h.advance, hanswer]
  · rw [Token.Mode.text, List.reverse_singleton, List.singleton_append, lex, lexFrom, if_pos hquote]
    rintro back rfl rfl
    exact absurd hquote (by decide)

end Cursor
end Sheet
end StyleAtlas
